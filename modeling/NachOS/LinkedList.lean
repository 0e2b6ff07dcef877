import NachOS.KernelList
import NachOS.LinkedCells
import NachOS.Memory

/-! `List<T>` (lib/list.h, lib/list.cc) as the code has it: a pointer to the first cell, one
to the last, and a count.  The operations are shown to be those of `KernelList` on the
sequence of items that the cells hold. -/
namespace NachOS

open StateMachine Memory LinkedCells

/-- A `ListElement` takes at least eight of the `2 ^ 32` bytes that a pointer reaches. -/
abbrev heapPlaces : ℕ := 2 ^ 29

structure Heap (T : Type) where
  cells : Store T
  requests : ℕ

structure LinkedList where
  first : Option ℕ
  last : Option ℕ
  numInList : ℤ
  deriving DecidableEq, Repr

namespace LinkedList

section Operations

variable {T : Type} [DecidableEq T]

def new : LinkedList := ⟨none,none,0⟩

/-- `new ListElement<T>(item)`, which has no result if the memory is used up. -/
def newElement (malloc : Allocator T heapPlaces) (h : Heap T) (item : T) :
    Except Fault (ℕ × Heap T) := do
  let element := malloc.place h.requests h.cells
  require (element < heapPlaces ∧ (h.cells element).isNone)
  return (element,⟨Function.update h.cells element (some ⟨none,item⟩),h.requests + 1⟩)

def IsEmpty (l : LinkedList) : Bool := l.numInList == 0

/-- The loop of `IsInList`, for at most `n` rounds.  With more rounds than there are places
for cells it would pass a cell twice and never end. -/
def isInFrom (h : Store T) (item : T) : ℕ → Option ℕ → Except Fault Bool
  | 0, _ => .error .blocked
  | _ + 1, none => .ok false
  | n + 1, some a => do
    let ptr ← load h (some a)
    if item = ptr.item then return true else isInFrom h item n ptr.next

def IsInList (h : Heap T) (l : LinkedList) (item : T) : Except Fault Bool :=
  isInFrom h.cells item (heapPlaces + 1) l.first

/-- `Append` and `Prepend`, which differ in how they link the new cell. -/
def put (link : Heap T → LinkedList → ℕ → Except Fault (Heap T × LinkedList))
    (malloc : Allocator T heapPlaces) (h : Heap T) (l : LinkedList) (item : T) :
    Except Fault (Heap T × LinkedList) := do
  let (element,h) ← newElement malloc h item
  let found ← IsInList h l item
  check (found = false)
  let (h,l) ← link h l element
  let l := { l with numInList := wrap (l.numInList + 1) }
  let found ← IsInList h l item
  check (found = true)
  return (h,l)

def linkLast (h : Heap T) (l : LinkedList) (element : ℕ) : Except Fault (Heap T × LinkedList) :=
  if l.IsEmpty then return (h,{ l with first := some element, last := some element })
  else do
    let cells ← setNext h.cells l.last (some element)
    return ({ h with cells := cells },{ l with last := some element })

def linkFirst (h : Heap T) (l : LinkedList) (element : ℕ) : Except Fault (Heap T × LinkedList) :=
  if l.IsEmpty then return (h,{ l with first := some element, last := some element })
  else do
    let cells ← setNext h.cells (some element) l.first
    return ({ h with cells := cells },{ l with first := some element })

def Append (malloc : Allocator T heapPlaces) (h : Heap T) (l : LinkedList) (item : T) :
    Except Fault (Heap T × LinkedList) := put linkLast malloc h l item

def Prepend (malloc : Allocator T heapPlaces) (h : Heap T) (l : LinkedList) (item : T) :
    Except Fault (Heap T × LinkedList) := put linkFirst malloc h l item

def RemoveFront (h : Heap T) (l : LinkedList) : Except Fault (T × Heap T × LinkedList) := do
  let element := l.first
  check (l.IsEmpty = false)
  let c ← load h.cells l.first
  let thing := c.item
  let l := if l.first = l.last then { l with first := none, last := none }
    else { l with first := c.next }
  let l := { l with numInList := wrap (l.numInList - 1) }
  let cells ← free h.cells element
  return (thing,{ h with cells := cells },l)

/-- The loop of `Remove`.  It returns the value of `ptr` when it ends. -/
def removeBehind (item : T) :
    ℕ → Option ℕ → Option ℕ → Heap T → LinkedList → Except Fault (Option ℕ × Heap T × LinkedList)
  | 0, _, _, _, _ => .error .blocked
  | _ + 1, _, none, h, l => .ok (none,h,l)
  | n + 1, prev, some a, h, l => do
    let ptr ← load h.cells (some a)
    if item = ptr.item then
      let cells ← setNext h.cells prev ptr.next
      let c ← load cells prev
      let l := if c.next = none then { l with last := prev } else l
      let cells ← free cells (some a)
      return (some a,{ h with cells := cells },{ l with numInList := wrap (l.numInList - 1) })
    else removeBehind item n (some a) ptr.next h l

def Remove (h : Heap T) (l : LinkedList) (item : T) : Except Fault (Heap T × LinkedList) := do
  let found ← IsInList h l item
  check (found = true)
  let c ← load h.cells l.first
  let (h,l) ← (if item = c.item then do
      let (removed,h,l) ← RemoveFront h l
      check (item = removed)
      pure (h,l)
    else do
      let (ptr,h,l) ← removeBehind item heapPlaces l.first c.next h l
      check (ptr ≠ none)
      pure (h,l))
  let found ← IsInList h l item
  check (found = false)
  return (h,l)

/-- The loop of `SanityCheck`; its assertion bounds the number of rounds. -/
def countFrom (h : Store T) (l : LinkedList) : ℕ → ℤ → Option ℕ → Except Fault ℤ
  | 0, _, _ => .error .blocked
  | n + 1, numFound, ptr =>
    if ptr = l.last then return numFound
    else do
      check (numFound + 1 ≤ l.numInList)
      let c ← load h ptr
      countFrom h l n (numFound + 1) c.next

def SanityCheck (h : Heap T) (l : LinkedList) : Except Fault Unit :=
  if l.first = none then check (l.numInList = 0 ∧ l.last = none)
  else if l.first = l.last then do
    let c ← load h.cells l.last
    check (l.numInList = 1 ∧ c.next = none)
  else do
    let numFound ← countFrom h.cells l (l.numInList.toNat + 1) 1 l.first
    check (numFound = l.numInList)
    let c ← load h.cells l.last
    check (c.next = none)

end Operations

variable {T : Type}

/-- The list object holds these cells. -/
structure Represents (h : Store T) (l : LinkedList) (cs : List (ℕ × T)) : Prop where
  chain : LinkedCells.Segment h l.first cs none
  last : l.last = lastPlace cs
  count : l.numInList = cs.length
  bounded : ∀ a ∈ places cs, a < heapPlaces

variable {h : Heap T} {l : LinkedList} {cs us vs : List (ℕ × T)} {x y : T} {a b : ℕ}
  (malloc : Allocator T heapPlaces)

/-- Some place for a cell is free. -/
def HasRoom (h : Heap T) : Prop := ∃ a, a < heapPlaces ∧ h.cells a = none

theorem represents_new (h : Store T) : Represents h new [] where
  chain := rfl
  last := rfl
  count := rfl
  bounded := by simp

/-- The count does not overflow: it stays below the number of places. -/
theorem wrap_count {n : ℤ} {k : ℕ} (hn : n = k) (hk : k ≤ heapPlaces + 1) : wrap n = k := by
  subst hn
  exact wrap_of_range (by omega) (by norm_num [heapPlaces] at hk; omega)

namespace Represents

theorem congr {h h' : Store T} (hr : Represents h l cs) (heq : ∀ b ∈ places cs, h' b = h b) :
    Represents h' l cs :=
  { hr with chain := hr.chain.congr heq }

/-- The cells of a list are different places, so there are not more than that. -/
theorem length_le {h : Store T} (hr : Represents h l cs) : cs.length ≤ heapPlaces := by
  have hsub : places cs ⊆ List.range heapPlaces := fun a ha => List.mem_range.mpr (hr.bounded a ha)
  have hle := (hr.chain.nodup.subperm hsub).length_le
  rw [List.length_range] at hle
  simpa using hle

theorem isEmpty_iff {h : Store T} (hr : Represents h l cs) : l.IsEmpty = true ↔ cs = [] := by
  simp [IsEmpty,hr.count]

theorem isEmpty_false {h : Store T} (hr : Represents h l cs) (hne : cs ≠ []) :
    l.IsEmpty = false := by
  rw [← Bool.not_eq_true,hr.isEmpty_iff]
  exact hne

end Represents

theorem Represents.wrap_add {h : Store T} (hr : Represents h l cs) (ds : List (ℕ × T))
    (hd : ds.length = cs.length + 1) : wrap (l.numInList + 1) = ds.length := by
  have hle := hr.length_le
  refine wrap_count ?_ (by omega)
  rw [hr.count,hd]
  norm_num

theorem Represents.wrap_sub {h : Store T} (hr : Represents h l cs) (ds : List (ℕ × T))
    (hd : cs.length = ds.length + 1) : wrap (l.numInList - 1) = ds.length := by
  have hle := hr.length_le
  refine wrap_count ?_ (by omega)
  rw [hr.count,hd]
  norm_num

theorem Represents.last_next {h : Store T} (hr : Represents h l cs) (ha : l.last = some a) :
    ∃ x, h a = some ⟨none,x⟩ := by
  rcases List.eq_nil_or_concat cs with rfl | ⟨us,⟨b,x⟩,rfl⟩
  · cases hr.last.symm.trans ha
  · rw [List.concat_eq_append] at hr
    have hb := hr.last.symm.trans ha
    rw [lastPlace_concat] at hb
    cases hb
    obtain ⟨-,_,hb,rfl⟩ := segment_around.mp hr.chain
    exact ⟨x,hb⟩

/-- If there are no other cells, a place is left as long as not all are on the list. -/
theorem hasRoom_of_alone (halone : ∀ b, b ∉ places cs → h.cells b = none)
    (hlt : cs.length < heapPlaces) : HasRoom h := by
  by_contra hfull
  have hsub : List.range heapPlaces ⊆ places cs := by
    intro a ha
    by_contra hout
    exact hfull ⟨a,List.mem_range.mp ha,halone a hout⟩
  have hle := (List.nodup_range.subperm hsub).length_le
  rw [List.length_range,List.length_map] at hle
  omega

theorem newElement_spec (hroom : HasRoom h) (x : T) :
    ∃ a k, newElement malloc h x = .ok (a,k) ∧ a < heapPlaces ∧ h.cells a = none ∧
      k.cells = Function.update h.cells a (some ⟨none,x⟩) := by
  obtain ⟨hlt,hnone⟩ := malloc.fresh h.requests h.cells hroom
  have hc : malloc.place h.requests h.cells < heapPlaces ∧
      (h.cells (malloc.place h.requests h.cells)).isNone = true := ⟨hlt,by simp [hnone]⟩
  refine ⟨_,⟨_,h.requests + 1⟩,?_,hlt,hnone,rfl⟩
  unfold newElement
  dsimp only
  rw [require_of hc]
  rfl

theorem hasRoom_of_newElement {r : ℕ × Heap T} (hnew : newElement malloc h x = .ok r) :
    HasRoom h := by
  obtain ⟨⟨hlt,hnone⟩,-⟩ := require_bind_ok.mp hnew
  exact ⟨_,hlt,Option.isNone_iff_eq_none.mp hnone⟩

/-- The list with one cell. -/
theorem represents_one {h : Store T} (ha : h a = some ⟨none,x⟩) (hlt : a < heapPlaces) :
    Represents h ⟨some a,some a,1⟩ [(a,x)] where
  chain := ⟨rfl,none,ha,rfl⟩
  last := rfl
  count := rfl
  bounded := by simpa using hlt

theorem linkLast_spec (hr : Represents h.cells l cs) (ha : h.cells a = some ⟨none,x⟩)
    (hout : a ∉ places cs) (hlt : a < heapPlaces) :
    ∃ h' l', linkLast h l a = .ok (h',l') ∧
      Represents h'.cells { l' with numInList := wrap (l'.numInList + 1) } (cs ++ [(a,x)]) ∧
      ∀ b, b ∉ places (cs ++ [(a,x)]) → h'.cells b = h.cells b := by
  have hcount := hr.wrap_add (cs ++ [(a,x)]) (by simp)
  rcases List.eq_nil_or_concat cs with rfl | ⟨us,⟨b,y⟩,hcs⟩
  · refine ⟨h,{ l with first := some a, last := some a },?_,
      { represents_one ha hlt with count := hcount },fun b _ => rfl⟩
    simp [linkLast,hr.isEmpty_iff.mpr rfl,pure,Except.pure]
  · rw [List.concat_eq_append] at hcs
    subst hcs
    have hne : l.IsEmpty = false := hr.isEmpty_false (by simp)
    have hlast : l.last = some b := by rw [hr.last,lastPlace_concat]
    obtain ⟨hus,next,hb,hnext⟩ := segment_around.mp hr.chain
    obtain rfl : next = none := hnext
    have hab : a ≠ b := by
      rintro rfl
      simp [places] at hout
    refine ⟨{ h with cells := Function.update h.cells b (some ⟨some a,y⟩) },
      { l with last := some a },?_,⟨?_,?_,hcount,?_⟩,fun c hc => ?_⟩
    · simp [linkLast,hne,hlast,setNext_of hb,bind,Except.bind,pure,Except.pure]
    · rw [List.append_assoc,List.singleton_append,segment_around]
      refine ⟨hus.update hr.chain.notMem_around.1 _,some a,Function.update_self ..,rfl,none,?_,rfl⟩
      exact (Function.update_of_ne hab _ _).trans ha
    · rw [lastPlace_concat]
    · intro c hc
      rw [places,List.map_append,List.mem_append] at hc
      rcases hc with hc | hc
      · exact hr.bounded c hc
      · exact List.mem_singleton.mp hc ▸ hlt
    · refine Function.update_of_ne ?_ _ _
      rintro rfl
      simp [places] at hc

theorem linkFirst_spec (hr : Represents h.cells l cs) (ha : h.cells a = some ⟨none,x⟩)
    (hout : a ∉ places cs) (hlt : a < heapPlaces) :
    ∃ h' l', linkFirst h l a = .ok (h',l') ∧
      Represents h'.cells { l' with numInList := wrap (l'.numInList + 1) } ((a,x) :: cs) ∧
      ∀ b, b ∉ places ((a,x) :: cs) → h'.cells b = h.cells b := by
  have hcount := hr.wrap_add ((a,x) :: cs) (by simp)
  cases cs with
  | nil =>
    refine ⟨h,{ l with first := some a, last := some a },?_,
      { represents_one ha hlt with count := hcount },fun b _ => rfl⟩
    simp [linkFirst,hr.isEmpty_iff.mpr rfl,pure,Except.pure]
  | cons c cs =>
    have hne : l.IsEmpty = false := hr.isEmpty_false (by simp)
    refine ⟨{ h with cells := Function.update h.cells a (some ⟨l.first,x⟩) },
      { l with first := some a },?_,⟨?_,?_,hcount,?_⟩,fun b hb => ?_⟩
    · simp [linkFirst,hne,setNext_of ha,bind,Except.bind,pure,Except.pure]
    · exact ⟨rfl,l.first,Function.update_self ..,hr.chain.update hout _⟩
    · rw [lastPlace_cons _ (List.cons_ne_nil c cs)]
      exact hr.last
    · intro b hb
      rcases List.mem_cons.mp hb with rfl | hb
      · exact hlt
      · exact hr.bounded b hb
    · refine Function.update_of_ne ?_ _ _
      rintro rfl
      simp [places] at hb

theorem RemoveFront_spec (hr : Represents h.cells l ((a,x) :: cs)) :
    ∃ l', RemoveFront h l = .ok (x,{ h with cells := Function.update h.cells a none },l') ∧
      Represents (Function.update h.cells a none) l' cs := by
  have hne : l.IsEmpty = false := hr.isEmpty_false (by simp)
  have hcount := hr.wrap_sub cs (by simp)
  have hout := (List.nodup_cons.mp hr.chain.nodup).1
  obtain ⟨hfirst,next,ha,hcs⟩ := hr.chain
  have hbounded : ∀ b ∈ places cs, b < heapPlaces :=
    fun b hb => hr.bounded b (List.mem_cons_of_mem a hb)
  have hlast := hr.last
  cases cs with
  | nil =>
    refine ⟨⟨none,none,wrap (l.numInList - 1)⟩,?_,⟨rfl,rfl,hcount,hbounded⟩⟩
    have heq : some a = l.last := hlast.symm
    simp [RemoveFront,hne,hfirst,heq.symm,load_of ha,free_of ha,bind,Except.bind,pure,Except.pure]
  | cons c cs =>
    refine ⟨⟨next,l.last,wrap (l.numInList - 1)⟩,?_,⟨hcs.update hout none,?_,hcount,hbounded⟩⟩
    · have hdiff : some a ≠ l.last := by
        rw [hlast,lastPlace_cons _ (List.cons_ne_nil c cs)]
        intro he
        exact hout (List.mem_of_getLast? he.symm)
      simp [RemoveFront,hne,hfirst,hdiff,load_of ha,free_of ha,bind,Except.bind,pure,Except.pure]
    · rw [hlast,lastPlace_cons _ (List.cons_ne_nil c cs)]

/-- The cell behind `b` is unlinked; it may be the last one. -/
theorem unlink_spec (hr : Represents h.cells l (us ++ (b,y) :: (a,x) :: vs)) :
    ∃ next cells, h.cells a = some ⟨next,x⟩ ∧ setNext h.cells (some b) next = .ok cells ∧
      load cells (some b) = .ok ⟨next,y⟩ ∧
      free cells (some a) = .ok (Function.update cells a none) ∧
      Represents (Function.update cells a none)
        { (if next = none then { l with last := some b } else l) with
          numInList := wrap (l.numInList - 1) } (us ++ (b,y) :: vs) ∧
      ∀ c, c ∉ places (us ++ (b,y) :: (a,x) :: vs) →
        Function.update cells a none c = h.cells c := by
  obtain ⟨hus,_,hb,rfl,next,ha,hvs⟩ := segment_around.mp hr.chain
  obtain ⟨hbus,hbvs⟩ := hr.chain.notMem_around
  have hmid : LinkedCells.Segment h.cells l.first ((us ++ [(b,y)]) ++ (a,x) :: vs) none := by
    simpa using hr.chain
  obtain ⟨haus,havs⟩ := hmid.notMem_around
  have hab : a ≠ b := by
    rintro rfl
    simp [places] at haus
  have hrest : vs = [] ↔ next = none := by
    cases vs with
    | nil => simpa using hvs
    | cons c vs => simp [hvs.1]
  refine ⟨next,_,ha,setNext_of hb next,load_of (Function.update_self ..),free_of (c := ⟨next,x⟩) ?_,
    ⟨?_,?_,?_,?_⟩,fun c hc => ?_⟩
  · exact (Function.update_of_ne hab _ _).trans ha
  · have hfirst : (if next = none then { l with last := some b } else l).first = l.first := by
      split <;> rfl
    rw [hfirst,segment_around]
    refine ⟨(hus.update hbus _).update ?_ _,next,?_,(hvs.update ?_ _).update havs _⟩
    · exact fun hm => haus (by simp only [places,List.map_append]; exact List.mem_append_left _ hm)
    · rw [Function.update_of_ne hab.symm,Function.update_self]
    · exact fun hm => hbvs (List.mem_cons_of_mem _ hm)
  · by_cases hnext : next = none
    · rw [if_pos hnext,hrest.mpr hnext,lastPlace_concat]
    · have hne : vs ≠ [] := fun he => hnext (hrest.mp he)
      rw [if_neg hnext,hr.last,lastPlace_append (List.cons_ne_nil _ _),
        lastPlace_append (List.cons_ne_nil _ _),lastPlace_cons _ (List.cons_ne_nil _ _),
        lastPlace_cons _ hne,lastPlace_cons _ hne]
  · exact hr.wrap_sub _ (by simp; omega)
  · intro c hc
    refine hr.bounded c ?_
    simp only [places,List.map_append,List.map_cons,List.mem_append,List.mem_cons] at hc ⊢
    tauto
  · simp only [places,List.map_append,List.map_cons,List.mem_append,List.mem_cons,not_or] at hc
    rw [Function.update_of_ne hc.2.2.1,Function.update_of_ne hc.2.1]

theorem countFrom_spec {p : Option ℕ} {n : ℕ} {h : Store T} {m : ℤ}
    (hs : LinkedCells.Segment h p (cs ++ [(a,x)]) none) (hlast : l.last = some a)
    (hcount : l.numInList = m + cs.length) (hn : cs.length < n) :
    countFrom h l n m p = .ok l.numInList := by
  induction cs generalizing p n m with
  | nil =>
    obtain ⟨n,rfl⟩ : ∃ m, n = m + 1 := ⟨n - 1,by omega⟩
    obtain ⟨rfl,-⟩ := hs
    simp [countFrom,hlast,hcount,pure,Except.pure]
  | cons c cs ih =>
    obtain ⟨n,rfl⟩ : ∃ m, n = m + 1 := ⟨n - 1,by omega⟩
    obtain ⟨b,y⟩ := c
    have hnodup := hs.nodup
    obtain ⟨rfl,next,hb,hs⟩ := hs
    have hab : b ≠ a := by
      rintro rfl
      simp [places] at hnodup
    simp only [List.length_cons,Nat.cast_add,Nat.cast_one] at hcount hn
    have hle : m + 1 ≤ l.numInList := by omega
    have hrest := ih (n := n) (m := m + 1) hs (by omega) (by omega)
    simp [countFrom,hlast,hab,hle,load_of hb,hrest,bind,Except.bind]

theorem SanityCheck_eq (hr : Represents h.cells l cs) : SanityCheck h l = .ok () := by
  rcases List.eq_nil_or_concat cs with rfl | ⟨us,⟨a,x⟩,hcs⟩
  · have hfirst : l.first = none := hr.chain
    have hlast : l.last = none := hr.last
    have hcount : l.numInList = 0 := hr.count
    simp [SanityCheck,hfirst,hlast,hcount]
  · rw [List.concat_eq_append] at hcs
    subst hcs
    have hlast : l.last = some a := by rw [hr.last,lastPlace_concat]
    obtain ⟨-,next,ha,hnext⟩ := segment_around.mp hr.chain
    obtain rfl : next = none := hnext
    have hcount := hr.count
    have hchain := hr.chain
    cases us with
    | nil =>
      obtain ⟨hfirst,-⟩ := hr.chain
      have hcount : l.numInList = 1 := hr.count
      simp [SanityCheck,hfirst,hlast,load_of ha,hcount,bind,Except.bind]
    | cons c us =>
      obtain ⟨b,y⟩ := c
      have hnodup := hr.chain.nodup
      have hab : b ≠ a := by
        rintro rfl
        simp [places] at hnodup
      have hfirst : l.first = some b := hr.chain.1
      have hcounted := countFrom_spec (n := l.numInList.toNat + 1) (m := 1) hchain hlast
        (by rw [hcount]; simp; omega) (by rw [hcount]; simp)
      simp only [hfirst] at hcounted
      simp [SanityCheck,hfirst,hlast,hab,hcounted,load_of ha,bind,Except.bind]

variable [DecidableEq T]

theorem isInFrom_of_segment {h : Store T} {p : Option ℕ} {n : ℕ}
    (hs : LinkedCells.Segment h p cs none) (hn : cs.length < n) :
    isInFrom h x n p = .ok (decide (x ∈ items cs)) := by
  induction cs generalizing p n with
  | nil =>
    obtain rfl : p = none := hs
    obtain ⟨n,rfl⟩ : ∃ m, n = m + 1 := ⟨n - 1,by omega⟩
    rfl
  | cons c cs ih =>
    obtain ⟨a,y⟩ := c
    obtain ⟨rfl,next,ha,hs⟩ := hs
    obtain ⟨n,rfl⟩ : ∃ m, n = m + 1 := ⟨n - 1,by omega⟩
    have hrest := ih hs (n := n) (by simpa using hn)
    unfold isInFrom
    simp only [load_of ha,bind,Except.bind]
    by_cases hxy : x = y
    · simp [hxy,pure,Except.pure]
    · simp [hxy,hrest]

theorem IsInList_eq (hr : Represents h.cells l cs) :
    IsInList h l x = .ok (decide (x ∈ items cs)) :=
  isInFrom_of_segment hr.chain (Nat.lt_succ_of_le hr.length_le)

/-- A new cell beside a list that does not have its item. -/
theorem newElement_beside (hr : Represents h.cells l cs) (hx : x ∉ items cs) (hroom : HasRoom h) :
    ∃ a k, newElement malloc h x = .ok (a,k) ∧ IsInList k l x = .ok false ∧ a < heapPlaces ∧
      h.cells a = none ∧ a ∉ places cs ∧ Represents k.cells l cs ∧ k.cells a = some ⟨none,x⟩ ∧
      ∀ b, b ≠ a → k.cells b = h.cells b := by
  obtain ⟨a,k,hnew,hlt,hnone,hk⟩ := newElement_spec malloc hroom x
  have hout := hr.chain.notMem hnone
  have hr₁ : Represents k.cells l cs := { hr with chain := hk ▸ hr.chain.update hout _ }
  refine ⟨a,k,hnew,?_,hlt,hnone,hout,hr₁,?_,fun b hb => ?_⟩
  · rw [IsInList_eq hr₁,decide_eq_false hx]
  · rw [hk,Function.update_self]
  · rw [hk,Function.update_of_ne hb]

/-- What adding a cell does, given what linking it does. -/
theorem put_spec {link : Heap T → LinkedList → ℕ → Except Fault (Heap T × LinkedList)}
    {ds : ℕ → List (ℕ × T)} (hr : Represents h.cells l cs) (hx : x ∉ items cs) (hroom : HasRoom h)
    (hmem : ∀ a, (a,x) ∈ ds a)
    (hlink : ∀ a (k : Heap T), Represents k.cells l cs → k.cells a = some ⟨none,x⟩ →
      a ∉ places cs → a < heapPlaces → ∃ k' l', link k l a = .ok (k',l') ∧
        Represents k'.cells { l' with numInList := wrap (l'.numInList + 1) } (ds a) ∧
        ∀ b, b ∉ places (ds a) → k'.cells b = k.cells b) :
    ∃ a h' l', put link malloc h l x = .ok (h',l') ∧ h.cells a = none ∧
      Represents h'.cells l' (ds a) ∧ ∀ b, b ∉ places (ds a) → h'.cells b = h.cells b := by
  obtain ⟨a,k,hnew,hbefore,hlt,hnone,hout,hr₁,ha,hk⟩ := newElement_beside malloc hr hx hroom
  obtain ⟨h',l',hl,hr',hframe⟩ := hlink a k hr₁ ha hout hlt
  have hafter : IsInList h' { l' with numInList := wrap (l'.numInList + 1) } x = .ok true := by
    rw [IsInList_eq hr',decide_eq_true (List.mem_map_of_mem (hmem a))]
  refine ⟨a,h',_,?_,hnone,hr',fun b hb => ?_⟩
  · simp only [put,hnew,bind,Except.bind,hbefore,check_of,hl,hafter]
    rfl
  · rw [hframe b hb]
    refine hk b ?_
    rintro rfl
    exact hb (List.mem_map_of_mem (hmem b))

theorem Append_spec (hr : Represents h.cells l cs) (hx : x ∉ items cs) (hroom : HasRoom h) :
    ∃ a h' l', Append malloc h l x = .ok (h',l') ∧ h.cells a = none ∧
      Represents h'.cells l' (cs ++ [(a,x)]) ∧
      ∀ b, b ∉ places (cs ++ [(a,x)]) → h'.cells b = h.cells b :=
  put_spec malloc hr hx hroom (by simp) fun _ _ hr ha hout hlt => linkLast_spec hr ha hout hlt

theorem Prepend_spec (hr : Represents h.cells l cs) (hx : x ∉ items cs) (hroom : HasRoom h) :
    ∃ a h' l', Prepend malloc h l x = .ok (h',l') ∧ h.cells a = none ∧
      Represents h'.cells l' ((a,x) :: cs) ∧
      ∀ b, b ∉ places ((a,x) :: cs) → h'.cells b = h.cells b :=
  put_spec malloc hr hx hroom (by simp) fun _ _ hr ha hout hlt => linkFirst_spec hr ha hout hlt

theorem removeBehind_spec {p : Option ℕ} {n : ℕ} {ws : List (ℕ × T)}
    (hr : Represents h.cells l (us ++ (b,y) :: (ws ++ (a,x) :: vs)))
    (hb : h.cells b = some ⟨p,y⟩) (hx : x ∉ items ws) (hn : ws.length < n) :
    ∃ h' l', removeBehind x n (some b) p h l = .ok (some a,h',l') ∧
      Represents h'.cells l' (us ++ (b,y) :: (ws ++ vs)) ∧ h'.cells a = none ∧
      ∀ c, c ∉ places (us ++ (b,y) :: (ws ++ (a,x) :: vs)) → h'.cells c = h.cells c := by
  induction ws generalizing us b y p n with
  | nil =>
    obtain ⟨n,rfl⟩ : ∃ m, n = m + 1 := ⟨n - 1,by omega⟩
    obtain ⟨-,_,hb',rfl,-⟩ := segment_around.mp hr.chain
    cases hb.symm.trans hb'
    obtain ⟨next,cells,ha,hset,hload,hfree,hr',hframe⟩ := unlink_spec hr
    refine ⟨{ h with cells := Function.update cells a none },_,?_,hr',Function.update_self ..,hframe⟩
    simp only [removeBehind,load_of ha,bind,Except.bind,if_true,hset,hload,hfree]
    split <;> rfl
  | cons c ws ih =>
    obtain ⟨n,rfl⟩ : ∃ m, n = m + 1 := ⟨n - 1,by omega⟩
    obtain ⟨d,z⟩ := c
    obtain ⟨-,_,hb',rfl,next,hd,-⟩ := segment_around.mp hr.chain
    cases hb.symm.trans hb'
    have hne : x ≠ z := fun he => hx (by simp [he])
    have hr₁ : Represents h.cells l ((us ++ [(b,y)]) ++ (d,z) :: (ws ++ (a,x) :: vs)) := by
      simpa using hr
    obtain ⟨h',l',hrun,hr',hnone,hframe⟩ :=
      ih (n := n) hr₁ hd (fun hm => hx (List.mem_cons_of_mem z hm)) (by simpa using hn)
    refine ⟨h',l',?_,by simpa using hr',hnone,by simpa using hframe⟩
    simp only [removeBehind,load_of hd,bind,Except.bind,if_neg hne,hrun]

theorem Remove_spec (hr : Represents h.cells l (us ++ (a,x) :: vs)) (hus : x ∉ items us)
    (hvs : x ∉ items vs) :
    ∃ h' l', Remove h l x = .ok (h',l') ∧ Represents h'.cells l' (us ++ vs) ∧
      h'.cells a = none ∧ ∀ c, c ∉ places (us ++ (a,x) :: vs) → h'.cells c = h.cells c := by
  have hfound : IsInList h l x = .ok true := by
    rw [IsInList_eq hr,decide_eq_true (by simp)]
  have hgone (k : Heap T) (l' : LinkedList) (hr' : Represents k.cells l' (us ++ vs)) :
      IsInList k l' x = .ok false := by
    rw [IsInList_eq hr',decide_eq_false]
    rw [items,List.map_append,List.mem_append,not_or]
    exact ⟨hus,hvs⟩
  cases us with
  | nil =>
    obtain ⟨l',hfront,hr'⟩ := RemoveFront_spec hr
    obtain ⟨hfirst,next,ha,-⟩ := hr.chain
    have hgone := hgone { h with cells := Function.update h.cells a none } l' hr'
    refine ⟨{ h with cells := Function.update h.cells a none },l',?_,hr',Function.update_self ..,
      fun c hc => Function.update_of_ne ?_ _ _⟩
    · simp [Remove,hfound,hfirst,load_of ha,hfront,hgone,bind,Except.bind,pure,Except.pure]
    · rintro rfl
      simp [places] at hc
  | cons c us =>
    obtain ⟨b,y⟩ := c
    obtain ⟨hfirst,next,hb,-⟩ := hr.chain
    have hne : x ≠ y := fun he => hus (by simp [he])
    have hlength : us.length < heapPlaces := by
      have hle := hr.length_le
      simp at hle
      omega
    have hr₁ : Represents h.cells l ([] ++ (b,y) :: (us ++ (a,x) :: vs)) := hr
    obtain ⟨h',l',hrun,hr',hnone,hframe⟩ :=
      removeBehind_spec hr₁ hb (fun hm => hus (List.mem_cons_of_mem y hm)) hlength
    refine ⟨h',l',?_,hr',hnone,hframe⟩
    simp [Remove,hfound,hfirst,load_of hb,hne,hrun,hgone h' l' hr',bind,Except.bind,pure,Except.pure]

/-! Runs of operations, and what they are on a sequence. -/

inductive Operation (T : Type)
  | append (item : T)
  | prepend (item : T)
  | remove (item : T)
  | removeFront
  deriving DecidableEq, Repr

namespace Operation

/-- An operation on the sequence of items, if its precondition is met. -/
def onSequence : Operation T → List T → Except Fault (List T)
  | .append x, xs => do
    require (x ∉ xs)
    KernelList.append xs x
  | .prepend x, xs => do
    require (x ∉ xs)
    return x :: xs
  | .remove x, xs => do
    require (x ∈ xs)
    return xs.erase x
  | .removeFront, xs => do
    require (xs ≠ [])
    let (_,xs) ← KernelList.removeFront xs
    return xs

def onList (malloc : Allocator T heapPlaces) :
    Operation T → Heap T → LinkedList → Except Fault (Heap T × LinkedList)
  | .append x, h, l => Append malloc h l x
  | .prepend x, h, l => Prepend malloc h l x
  | .remove x, h, l => Remove h l x
  | .removeFront, h, l => do
    let (_,h,l) ← RemoveFront h l
    return (h,l)

/-- Whether a cell is needed. -/
def adds : Operation T → Bool
  | .append _ | .prepend _ => true
  | .remove _ | .removeFront => false

variable {op : Operation T} {xs : List T}

theorem onSequence_ok {ys : List T} : op.onSequence xs = .ok ys ↔ match op with
    | .append x => x ∉ xs ∧ ys = xs ++ [x]
    | .prepend x => x ∉ xs ∧ ys = x :: xs
    | .remove x => x ∈ xs ∧ ys = xs.erase x
    | .removeFront => xs ≠ [] ∧ ys = xs.tail := by
  cases op with
  | append x =>
    refine require_bind_ok.trans (and_congr_right fun hx => ?_)
    rw [KernelList.append_of_notMem hx,Except.ok.injEq,eq_comm]
  | prepend x => exact require_bind_ok.trans (by simp [pure,Except.pure,eq_comm])
  | remove x => exact require_bind_ok.trans (by simp [pure,Except.pure,eq_comm])
  | removeFront =>
    refine require_bind_ok.trans (and_congr_right fun hne => ?_)
    cases xs with
    | nil => exact absurd rfl hne
    | cons x xs => simp [KernelList.removeFront,bind,Except.bind,pure,Except.pure,eq_comm]

theorem onSequence_nodup {ys : List T} (hxs : xs.Nodup) (h : op.onSequence xs = .ok ys) :
    ys.Nodup := by
  cases op with
  | append x =>
    obtain ⟨hx,rfl⟩ := onSequence_ok.mp h
    rw [← List.concat_eq_append]
    exact hxs.concat hx
  | prepend x =>
    obtain ⟨hx,rfl⟩ := onSequence_ok.mp h
    exact List.nodup_cons.mpr ⟨hx,hxs⟩
  | remove x =>
    obtain ⟨-,rfl⟩ := onSequence_ok.mp h
    exact hxs.erase x
  | removeFront =>
    obtain ⟨-,rfl⟩ := onSequence_ok.mp h
    exact hxs.tail

theorem onSequence_length {ys : List T} (h : op.onSequence xs = .ok ys) :
    ys.length ≤ xs.length + 1 := by
  cases op with
  | append x =>
    obtain ⟨-,rfl⟩ := onSequence_ok.mp h
    simp
  | prepend x =>
    obtain ⟨-,rfl⟩ := onSequence_ok.mp h
    simp
  | remove x =>
    obtain ⟨-,rfl⟩ := onSequence_ok.mp h
    exact List.length_erase_le.trans (Nat.le_succ _)
  | removeFront =>
    obtain ⟨-,rfl⟩ := onSequence_ok.mp h
    simp
    omega

/-- An operation that is allowed on the sequence does the same to the list, and changes no
cell but those of the list; the ones it takes out are free afterwards. -/
theorem onList_spec (hr : Represents h.cells l cs) (hnodup : (items cs).Nodup)
    (hop : op.onSequence (items cs) = .ok xs) (hroom : op.adds = true → HasRoom h) :
    ∃ h' l' ds, op.onList malloc h l = .ok (h',l') ∧ Represents h'.cells l' ds ∧ items ds = xs ∧
      ∀ b, b ∉ places ds → h'.cells b = if b ∈ places cs then none else h.cells b := by
  cases op with
  | append x =>
    obtain ⟨hx,rfl⟩ := onSequence_ok.mp hop
    obtain ⟨a,h',l',hrun,-,hr',hframe⟩ := Append_spec malloc hr hx (hroom rfl)
    refine ⟨h',l',_,hrun,hr',by simp,fun b hb => ?_⟩
    rw [hframe b hb,if_neg fun hm => hb (by simp [hm])]
  | prepend x =>
    obtain ⟨hx,rfl⟩ := onSequence_ok.mp hop
    obtain ⟨a,h',l',hrun,-,hr',hframe⟩ := Prepend_spec malloc hr hx (hroom rfl)
    refine ⟨h',l',_,hrun,hr',by simp,fun b hb => ?_⟩
    rw [hframe b hb,if_neg fun hm => hb (List.mem_cons_of_mem _ hm)]
  | remove x =>
    obtain ⟨hx,rfl⟩ := onSequence_ok.mp hop
    obtain ⟨⟨a,y⟩,hc,hy⟩ := List.mem_map.mp hx
    obtain rfl : y = x := hy
    obtain ⟨us,vs,rfl⟩ := List.append_of_mem hc
    simp only [items,List.map_append,List.map_cons] at hnodup
    have hnot := (List.nodup_cons.mp (List.perm_middle.nodup_iff.mp hnodup)).1
    rw [List.mem_append,not_or] at hnot
    obtain ⟨h',l',hrun,hr',hnone,hframe⟩ := Remove_spec hr hnot.1 hnot.2
    refine ⟨h',l',_,hrun,hr',?_,fun b hb => ?_⟩
    · simp only [items,List.map_append,List.map_cons]
      rw [List.erase_append_right _ hnot.1,List.erase_cons_head]
    · by_cases hba : b = a
      · subst hba
        rw [hnone,if_pos (by simp)]
      · have hout : b ∉ places (us ++ (a,y) :: vs) := by
          simp only [places,List.map_append,List.map_cons,List.mem_append,List.mem_cons] at hb ⊢
          tauto
        rw [hframe b hout,if_neg hout]
  | removeFront =>
    obtain ⟨hne,rfl⟩ := onSequence_ok.mp hop
    cases cs with
    | nil => exact absurd rfl hne
    | cons c cs =>
      obtain ⟨l',hrun,hr'⟩ := RemoveFront_spec hr
      refine ⟨{ h with cells := Function.update h.cells c.1 none },l',cs,?_,hr',rfl,fun b hb => ?_⟩
      · simp [onList,hrun,bind,Except.bind,pure,Except.pure]
      · by_cases hbc : b = c.1
        · rw [if_pos (by simp [hbc]),hbc]
          exact Function.update_self ..
        · rw [if_neg (by simpa [hbc] using hb)]
          exact Function.update_of_ne hbc _ _

end Operation

/-- A list object, with the sequence that the operations so far make of the empty one. -/
structure State (T : Type) where
  heap : Heap T
  list : LinkedList
  items : List T

def step (s : State T) (op : Operation T) : Except Fault (State T) := do
  let items ← op.onSequence s.items
  let (heap,list) ← op.onList malloc s.heap s.list
  return ⟨heap,list,items⟩

/-- Other cells may be on the heap before. -/
def machine : Machine (State T) (Operation T) where
  initial s := s.list = new ∧ s.items = []
  step := step malloc

/-- The operations on sequences alone. -/
def sequence : Machine (List T) (Operation T) where
  initial xs := xs = []
  step xs op := op.onSequence xs

structure State.Inv (s : State T) (cs : List (ℕ × T)) : Prop where
  represents : Represents s.heap.cells s.list cs
  items_eq : LinkedCells.items cs = s.items
  nodup : s.items.Nodup

theorem hasRoom_of_put {link : Heap T → LinkedList → ℕ → Except Fault (Heap T × LinkedList)}
    {r : Heap T × LinkedList} (hrun : put link malloc h l x = .ok r) : HasRoom h := by
  obtain ⟨_,hnew,-⟩ := bind_ok.mp hrun
  exact hasRoom_of_newElement malloc hnew

theorem hasRoom_of_onList {op : Operation T} {r : Heap T × LinkedList}
    (hrun : op.onList malloc h l = .ok r) (hadds : op.adds = true) : HasRoom h := by
  cases op with
  | append x => exact hasRoom_of_put malloc hrun
  | prepend x => exact hasRoom_of_put malloc hrun
  | remove x => cases hadds
  | removeFront => cases hadds

theorem State.Inv.step_ok {s : State T} {op : Operation T} {xs : List T} (hi : s.Inv cs)
    (hop : op.onSequence s.items = .ok xs) (hroom : op.adds = true → HasRoom s.heap) :
    ∃ t ds, step malloc s op = .ok t ∧ t.items = xs ∧ t.Inv ds ∧
      ∀ b, b ∉ places ds → t.heap.cells b = if b ∈ places cs then none else s.heap.cells b := by
  have hnodup := op.onSequence_nodup hi.nodup hop
  obtain ⟨h',l',ds,hrun,hr',hds,hframe⟩ := op.onList_spec malloc hi.represents
    (hi.items_eq ▸ hi.nodup) (hi.items_eq.symm ▸ hop) hroom
  refine ⟨⟨h',l',xs⟩,ds,?_,rfl,⟨hr',hds,hnodup⟩,hframe⟩
  simp [step,hop,hrun,bind,Except.bind,pure,Except.pure]

theorem inv_step {s t : State T} {op : Operation T} (hi : s.Inv cs)
    (hstep : step malloc s op = .ok t) : ∃ ds, t.Inv ds := by
  obtain ⟨xs,hop,hrest⟩ := bind_ok.mp hstep
  obtain ⟨r,hrun,-⟩ := bind_ok.mp hrest
  obtain ⟨t',ds,hstep',-,ht,-⟩ := hi.step_ok malloc hop (hasRoom_of_onList malloc hrun)
  cases hstep.symm.trans hstep'
  exact ⟨ds,ht⟩

theorem reachable_inv {s : State T} (hs : (machine malloc).Reachable s) : ∃ cs, s.Inv cs := by
  refine hs.invariant (P := fun s => ∃ cs, s.Inv cs) ?_ ?_
  · rintro ⟨heap,list,items⟩ ⟨rfl,rfl⟩
    exact ⟨[],represents_new _,rfl,List.nodup_nil⟩
  · rintro s op t ⟨cs,hi⟩ hstep
    exact inv_step malloc hi hstep

/-- After any operations that were allowed on the sequence of items, the pointers lead from
`first` through the cells of these items to `last`, as many as `numInList` says, and every
operation allowed now succeeds, with all its assertions. -/
theorem list_is_sequence {s : State T} (hs : (machine malloc).Reachable s) :
    (∃ cs, LinkedCells.Segment s.heap.cells s.list.first cs none ∧ s.list.numInList = cs.length ∧
      s.list.last = lastPlace cs ∧ items cs = s.items ∧
      (∀ a, s.list.last = some a → ∃ x, s.heap.cells a = some ⟨none,x⟩) ∧
      (cs = [] → s.list.first = none ∧ s.list.last = none)) ∧
    SanityCheck s.heap s.list = .ok () ∧ s.items.Nodup ∧
    (∀ (op : Operation T) xs, op.onSequence s.items = .ok xs →
      (op.adds = true → HasRoom s.heap) → ∃ t, step malloc s op = .ok t ∧ t.items = xs) ∧
    ∀ x xs, s.items = x :: xs → ∃ h l, RemoveFront s.heap s.list = .ok (x,h,l) := by
  obtain ⟨cs,hi⟩ := reachable_inv malloc hs
  have hr := hi.represents
  refine ⟨⟨cs,hr.chain,hr.count,hr.last,hi.items_eq,fun a ha => ?_,?_⟩,SanityCheck_eq hr,hi.nodup,
    fun op xs hop hroom => ?_,fun x xs hxs => ?_⟩
  · exact hr.last_next ha
  · rintro rfl
    exact ⟨hr.chain,hr.last⟩
  · obtain ⟨t,-,hstep,hitems,-⟩ := hi.step_ok malloc hop hroom
    exact ⟨t,hstep,hitems⟩
  · rw [← hi.items_eq] at hxs
    obtain ⟨⟨a,_⟩,ds,rfl,rfl,-⟩ := List.map_eq_cons_iff.mp hxs
    obtain ⟨l',hrun,-⟩ := RemoveFront_spec hr
    exact ⟨_,l',hrun⟩

/-- What the operations do to a sequence they do to a list that has the heap to itself. -/
theorem run_of_sequence {s : State T} {ops : List (Operation T)} {xs : List T} (hi : s.Inv cs)
    (halone : ∀ b, b ∉ places cs → s.heap.cells b = none)
    (hrun : sequence.run s.items ops = .ok xs)
    (hsize : s.items.length + ops.length ≤ heapPlaces) :
    ∃ t, (machine malloc).run s ops = .ok t ∧ t.items = xs := by
  induction ops generalizing s cs with
  | nil =>
    cases hrun
    exact ⟨s,rfl,rfl⟩
  | cons op ops ih =>
    obtain ⟨ys,hop,hrun⟩ := sequence.run_cons_ok.mp hrun
    rw [List.length_cons] at hsize
    have hlength : cs.length = s.items.length := by rw [← hi.items_eq,List.length_map]
    have hroom := hasRoom_of_alone halone (by omega)
    obtain ⟨t,ds,hstep,rfl,ht,hframe⟩ := hi.step_ok malloc hop fun _ => hroom
    have halone' : ∀ b, b ∉ places ds → t.heap.cells b = none := by
      intro b hb
      rw [hframe b hb]
      split
      · rfl
      · exact halone b ‹_›
    have hgrown := op.onSequence_length hop
    obtain ⟨u,hu,hxs⟩ := ih ht halone' hrun (by omega)
    exact ⟨u,(machine malloc).run_cons_ok.mpr ⟨t,hstep,hu⟩,hxs⟩

/-- Three items, one of them put in front and one taken out from the end. -/
def moves : List (Operation ℕ) := [.append 5,.append 7,.prepend 3,.remove 7,.append 9,.removeFront]

theorem list_is_sequence_moves : ∃ s,
    (machine (firstFree ℕ heapPlaces)).run ⟨⟨fun _ => none,0⟩,new,[]⟩ moves = .ok s ∧
      s.items = [5,9] ∧ SanityCheck s.heap s.list = .ok () := by
  have hi : State.Inv (⟨⟨fun _ => none,0⟩,new,[]⟩ : State ℕ) [] :=
    ⟨represents_new _,rfl,List.nodup_nil⟩
  have hmoves : sequence.run [] moves = .ok [5,9] := rfl
  obtain ⟨s,hrun,hitems⟩ :=
    run_of_sequence (firstFree ℕ heapPlaces) hi (fun _ _ => rfl) hmoves (by decide)
  have hs := Machine.Reachable.run (.start (M := machine (firstFree ℕ heapPlaces)) ⟨rfl,rfl⟩) hrun
  exact ⟨s,hrun,hitems,(list_is_sequence _ hs).2.1⟩

end LinkedList
end NachOS
