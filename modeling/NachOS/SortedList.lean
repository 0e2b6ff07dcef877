import NachOS.LinkedList

/-! `SortedList<T>` (lib/list.h, lib/list.cc): insertion by a comparison function into the
cells of a `List<T>`. -/
namespace NachOS
namespace SortedList

open StateMachine Memory LinkedCells LinkedList

variable {T : Type} [DecidableEq T] (compare : T → T → ℤ) (malloc : Allocator T heapPlaces)

/-- The loop of `Insert`, which looks for a cell with a bigger item behind it and puts the
new one there.  It has no result if it comes to the end of the list. -/
def insertBehind (h : Store T) (item : T) (element : ℕ) :
    ℕ → Option ℕ → Except Fault (Option (Store T))
  | 0, _ => .error .blocked
  | n + 1, ptr => do
    let c ← load h ptr
    if c.next = none then return none
    else
      let d ← load h c.next
      if compare item d.item < 0 then
        let h ← setNext h (some element) c.next
        let h ← setNext h ptr (some element)
        return some h
      else insertBehind h item element n c.next

/-- The end of `Insert`, which the exit in the middle of the list does not come to. -/
def counted (h : Heap T) (l : LinkedList) (item : T) : Except Fault (Heap T × LinkedList) := do
  let l := { l with numInList := wrap (l.numInList + 1) }
  let found ← IsInList h l item
  check (found = true)
  return (h,l)

/-- Where the new cell goes: it is the only one, the first, one in the middle or the last. -/
def insertElement (h : Heap T) (l : LinkedList) (item : T) (element : ℕ) :
    Except Fault (Heap T × LinkedList) :=
  if l.IsEmpty then
    counted h { l with first := some element, last := some element } item
  else do
    let c ← load h.cells l.first
    if compare item c.item < 0 then
      let cells ← setNext h.cells (some element) l.first
      counted { h with cells := cells } { l with first := some element } item
    else
      match ← insertBehind compare h.cells item element heapPlaces l.first with
      | some cells =>
        return ({ h with cells := cells },{ l with numInList := wrap (l.numInList + 1) })
      | none =>
        let cells ← setNext h.cells l.last (some element)
        counted { h with cells := cells } { l with last := some element } item

def Insert (h : Heap T) (l : LinkedList) (item : T) : Except Fault (Heap T × LinkedList) := do
  let (element,h) ← newElement malloc h item
  let found ← IsInList h l item
  check (found = false)
  insertElement compare h l item element

/-- The loop of `SanityCheck`. -/
def sortedFrom (h : Store T) : ℕ → Option ℕ → Option ℕ → Except Fault Unit
  | 0, _, _ => .error .blocked
  | _ + 1, _, none => .ok ()
  | n + 1, prev, some a => do
    let p ← load h prev
    let c ← load h (some a)
    check (compare p.item c.item ≤ 0)
    sortedFrom h n (some a) c.next

def SanityCheck (h : Heap T) (l : LinkedList) : Except Fault Unit := do
  LinkedList.SanityCheck h l
  if l.first ≠ l.last then
    let c ← load h.cells l.first
    sortedFrom compare h.cells heapPlaces l.first c.next

variable {h : Heap T} {l : LinkedList} {cs us vs : List (ℕ × T)} {x y : T} {a b : ℕ}
  {compare : T → T → ℤ}

omit [DecidableEq T] in
/-- The new cell goes between `b` and the one behind it. -/
theorem splice_spec (hr : Represents h.cells l (us ++ (b,y) :: vs)) (hvs : vs ≠ [])
    (ha : h.cells a = some ⟨none,x⟩) (hlt : a < heapPlaces)
    (hout : a ∉ places (us ++ (b,y) :: vs)) :
    ∃ next cells cells', h.cells b = some ⟨next,y⟩ ∧ setNext h.cells (some a) next = .ok cells ∧
      setNext cells (some b) (some a) = .ok cells' ∧
      Represents cells' { l with numInList := wrap (l.numInList + 1) }
        (us ++ (b,y) :: (a,x) :: vs) ∧
      ∀ c, c ∉ places (us ++ (b,y) :: (a,x) :: vs) → cells' c = h.cells c := by
  obtain ⟨hus,next,hb,hrest⟩ := segment_around.mp hr.chain
  obtain ⟨hbus,hbvs⟩ := hr.chain.notMem_around
  simp only [places,List.map_append,List.map_cons,List.mem_append,List.mem_cons,not_or] at hout
  obtain ⟨haus,hab,havs⟩ := hout
  have hb' : Function.update h.cells a (some ⟨next,x⟩) b = some ⟨next,y⟩ :=
    (Function.update_of_ne (Ne.symm hab) _ _).trans hb
  refine ⟨next,_,_,hb,setNext_of ha next,setNext_of hb' (some a),⟨?_,?_,?_,?_⟩,fun c hc => ?_⟩
  · rw [segment_around]
    refine ⟨(hus.update haus _).update hbus _,some a,Function.update_self ..,rfl,next,?_,
      (hrest.update havs _).update hbvs _⟩
    rw [Function.update_of_ne hab,Function.update_self]
  · rw [hr.last,lastPlace_append (List.cons_ne_nil _ _),lastPlace_append (List.cons_ne_nil _ _),
      lastPlace_cons _ hvs,lastPlace_cons _ (List.cons_ne_nil _ _),lastPlace_cons _ hvs]
  · exact hr.wrap_add _ (by simp; omega)
  · intro c hc
    simp only [places,List.map_append,List.map_cons,List.mem_append,List.mem_cons] at hc
    rcases hc with hc | rfl | rfl | hc
    · exact hr.bounded c (by simp [hc])
    · exact hr.bounded c (by simp)
    · exact hlt
    · exact hr.bounded c (by simp [hc])
  · simp only [places,List.map_append,List.map_cons,List.mem_append,List.mem_cons,not_or] at hc
    rw [Function.update_of_ne hc.2.1,Function.update_of_ne hc.2.2.1]

omit [DecidableEq T] in
theorem insertBehind_spec (compare : T → T → ℤ) {n : ℕ}
    (hr : Represents h.cells l (us ++ (b,y) :: vs)) (ha : h.cells a = some ⟨none,x⟩) (hlt : a < heapPlaces)
    (hout : a ∉ places (us ++ (b,y) :: vs)) (hn : vs.length < n) :
    (∃ ws c ws' cells, vs = ws ++ c :: ws' ∧ (∀ z ∈ items ws, ¬ compare x z < 0) ∧
      compare x c.2 < 0 ∧ insertBehind compare h.cells x a n (some b) = .ok (some cells) ∧
      Represents cells { l with numInList := wrap (l.numInList + 1) }
        (us ++ (b,y) :: (ws ++ (a,x) :: c :: ws')) ∧
      ∀ d, d ∉ places (us ++ (b,y) :: (ws ++ (a,x) :: c :: ws')) → cells d = h.cells d) ∨
    (∀ z ∈ items vs, ¬ compare x z < 0) ∧
      insertBehind compare h.cells x a n (some b) = .ok none := by
  induction vs generalizing us b y n with
  | nil =>
    obtain ⟨n,rfl⟩ : ∃ m, n = m + 1 := ⟨n - 1,by omega⟩
    obtain ⟨-,_,hb,rfl⟩ := segment_around.mp hr.chain
    refine Or.inr ⟨by simp,?_⟩
    simp [insertBehind,load_of hb,bind,Except.bind,pure,Except.pure]
  | cons c vs ih =>
    obtain ⟨n,rfl⟩ : ∃ m, n = m + 1 := ⟨n - 1,by omega⟩
    obtain ⟨d,z⟩ := c
    obtain ⟨-,_,hb,rfl,next,hd,-⟩ := segment_around.mp hr.chain
    by_cases hz : compare x z < 0
    · obtain ⟨_,cells,cells',hb',hset,hset',hr',hframe⟩ :=
        splice_spec hr (List.cons_ne_nil _ _) ha hlt hout
      cases hb.symm.trans hb'
      refine Or.inl ⟨[],(d,z),vs,cells',rfl,by simp,hz,?_,hr',hframe⟩
      simp [insertBehind,load_of hb,load_of hd,hz,hset,hset',bind,Except.bind,pure,Except.pure]
    · have hnext : insertBehind compare h.cells x a (n + 1) (some b) =
          insertBehind compare h.cells x a n (some d) := by
        simp [insertBehind,load_of hb,load_of hd,hz,bind,Except.bind]
      have hr₁ : Represents h.cells l ((us ++ [(b,y)]) ++ (d,z) :: vs) := by simpa using hr
      rw [hnext]
      rcases ih (n := n) hr₁ (by simpa using hout) (by simpa using hn) with
        ⟨ws,c,ws',cells,rfl,hws,hc,hrun,hr',hframe⟩ | ⟨hvs,hrun⟩
      · refine Or.inl ⟨(d,z) :: ws,c,ws',cells,rfl,?_,hc,hrun,by simpa using hr',by simpa using hframe⟩
        exact List.forall_mem_cons.mpr ⟨hz,hws⟩
      · exact Or.inr ⟨List.forall_mem_cons.mpr ⟨hz,hvs⟩,hrun⟩

theorem counted_eq {ds : List (ℕ × T)}
    (hr : Represents h.cells { l with numInList := wrap (l.numInList + 1) } ds)
    (hx : x ∈ items ds) :
    counted h l x = .ok (h,{ l with numInList := wrap (l.numInList + 1) }) := by
  have hfound : IsInList h { l with numInList := wrap (l.numInList + 1) } x = .ok true := by
    rw [IsInList_eq hr,decide_eq_true hx]
  simp [counted,hfound,bind,Except.bind,pure,Except.pure]

theorem insertElement_spec (compare : T → T → ℤ) (hr : Represents h.cells l cs)
    (ha : h.cells a = some ⟨none,x⟩) (hlt : a < heapPlaces) (hout : a ∉ places cs) :
    ∃ h' l' ds, insertElement compare h l x a = .ok (h',l') ∧ Represents h'.cells l' ds ∧
      items ds = KernelList.insertBehind compare x (items cs) ∧
      (places ds).Perm (a :: places cs) ∧ ∀ b, b ∉ places ds → h'.cells b = h.cells b := by
  have hempty := hr.isEmpty_iff
  obtain ⟨k,l₁,hfirst,hr₁,hframe₁⟩ := linkFirst_spec hr ha hout hlt
  obtain ⟨m,l₂,hlast,hr₂,hframe₂⟩ := linkLast_spec hr ha hout hlt
  cases cs with
  | nil =>
    have hrun : insertElement compare h l x a = counted k l₁ x := by
      simp only [linkFirst,hempty.mpr rfl,if_true] at hfirst
      cases hfirst
      simp only [insertElement,hempty.mpr rfl,if_true]
    exact ⟨k,_,_,hrun.trans (counted_eq hr₁ (by simp)),hr₁,rfl,List.Perm.refl _,hframe₁⟩
  | cons c cs =>
    obtain ⟨b,y⟩ := c
    have hne : l.IsEmpty = false := hr.isEmpty_false (by simp)
    obtain ⟨hstart,next,hb,-⟩ := hr.chain
    by_cases hy : compare x y < 0
    · have hrun : insertElement compare h l x a = counted k l₁ x := by
        simp only [linkFirst,hne,Bool.false_eq_true,if_false] at hfirst
        obtain ⟨cells,hset,hpair⟩ := bind_ok.mp hfirst
        cases hpair
        simp only [hstart] at hset
        simp [insertElement,hne,hstart,load_of hb,hy,hset,bind,Except.bind]
      refine ⟨k,_,_,hrun.trans (counted_eq hr₁ (by simp)),hr₁,?_,List.Perm.refl _,hframe₁⟩
      simp [KernelList.insertBehind,hy]
    · have hlength : cs.length < heapPlaces := hr.length_le
      have hr' : Represents h.cells l ([] ++ (b,y) :: cs) := hr
      rcases insertBehind_spec compare hr' ha hlt hout hlength with
        ⟨ws,c,ws',cells,rfl,hws,hc,hrun,hr₃,hframe₃⟩ | ⟨hcs,hrun⟩
      · refine ⟨{ h with cells := cells },_,_,?_,hr₃,?_,?_,hframe₃⟩
        · simp [insertElement,hne,hstart,load_of hb,hy,hrun,bind,Except.bind,pure,Except.pure]
        · have hsplit : KernelList.insertBehind compare x (items ws ++ c.2 :: items ws') =
              items ws ++ x :: c.2 :: items ws' := KernelList.insertBehind_before hws hc
          simp only [items,List.map_append,List.map_cons,List.nil_append,
            KernelList.insertBehind,if_neg hy] at hsplit ⊢
          rw [hsplit]
        · have hperm : (b :: places ws ++ a :: c.1 :: places ws').Perm
              (a :: (b :: places ws ++ c.1 :: places ws')) := List.perm_middle
          simpa [places] using hperm
      · have hend : insertElement compare h l x a = counted m l₂ x := by
          simp only [linkLast,hne,Bool.false_eq_true,if_false] at hlast
          obtain ⟨cells,hset,hpair⟩ := bind_ok.mp hlast
          cases hpair
          simp [insertElement,hne,hstart,load_of hb,hy,hrun,hset,bind,Except.bind]
        refine ⟨m,_,_,hend.trans (counted_eq hr₂ (by simp)),hr₂,?_,?_,hframe₂⟩
        rw [KernelList.insertBehind_last]
        · simp
        · exact List.forall_mem_cons.mpr ⟨hy,hcs⟩
        · rw [places,List.map_append]
          exact List.perm_append_singleton _ _

/-- `Insert` puts the item where insertion into the sequence puts it. -/
theorem Insert_spec (compare : T → T → ℤ) (malloc : Allocator T heapPlaces)
    {xs : List T} (hr : Represents h.cells l cs)
    (hinsert : KernelList.insert compare (items cs) x = .ok xs) (hroom : HasRoom h) :
    ∃ h' l' ds, Insert compare malloc h l x = .ok (h',l') ∧ Represents h'.cells l' ds ∧
      items ds = xs ∧ places cs ⊆ places ds ∧ ∀ b, b ∉ places ds → h'.cells b = h.cells b := by
  obtain ⟨hx,rfl⟩ := KernelList.insert_ok.mp hinsert
  obtain ⟨a,k,hnew,hbefore,hlt,_,hout,hr₁,ha,hk⟩ := newElement_beside malloc hr hx hroom
  obtain ⟨h',l',ds,hrun,hr',hds,hperm,hframe⟩ := insertElement_spec compare hr₁ ha hlt hout
  refine ⟨h',l',ds,?_,hr',hds,fun b hb => ?_,fun b hb => ?_⟩
  · simp only [Insert,hnew,bind,Except.bind,hbefore,check_of,hrun]
  · exact hperm.mem_iff.mpr (List.mem_cons_of_mem a hb)
  · rw [hframe b hb]
    refine hk b ?_
    rintro rfl
    exact hb (hperm.mem_iff.mpr List.mem_cons_self)

/-- A comparison by sign, as list.h asks for it, in which items may compare equal. -/
structure TotalPreorder (compare : T → T → ℤ) : Prop where
  swap : ∀ x y, compare x y < 0 ↔ 0 < compare y x
  trans : ∀ x y z, compare x y ≤ 0 → compare y z ≤ 0 → compare x z ≤ 0

namespace TotalPreorder

omit [DecidableEq T]

variable (hc : TotalPreorder compare) {z : T}

include hc

theorem refl (x : T) : compare x x = 0 := by
  have := hc.swap x x
  omega

theorem le_of_not_lt (h : ¬ compare x y < 0) : compare y x ≤ 0 := by
  have := hc.swap x y
  omega

theorem lt_of_lt_of_le (hxy : compare x y < 0) (hyz : compare y z ≤ 0) : compare x z < 0 := by
  by_contra h
  have hle := hc.trans y z x hyz (hc.le_of_not_lt h)
  have := hc.swap x y
  omega

theorem eq_of_eq (hx : compare z x = 0) (hy : compare z y = 0) : compare x y = 0 := by
  have h₁ := hc.swap x z
  have h₂ := hc.swap z x
  have h₃ := hc.swap y z
  have h₄ := hc.swap z y
  have hxy := hc.trans x z y (by omega) (by omega)
  have hyx := hc.trans y z x (by omega) (by omega)
  have h₅ := hc.swap x y
  have h₆ := hc.swap y x
  omega

/-- Among the items that compare equal to `c`, the inserted one comes last. -/
theorem filter_insertBehind {l : List T} (hl : l.Pairwise fun a b => compare a b ≤ 0) (c : T) :
    (KernelList.insertBehind compare x l).filter (fun y => compare c y = 0) =
      (l ++ [x]).filter fun y => compare c y = 0 := by
  induction l with
  | nil => rfl
  | cons y ys ih =>
    obtain ⟨hy,hys⟩ := List.pairwise_cons.mp hl
    by_cases hxy : compare x y < 0
    · have hbigger : ∀ z ∈ y :: ys, compare x z < 0 :=
        List.forall_mem_cons.mpr ⟨hxy,fun z hz => hc.lt_of_lt_of_le hxy (hy z hz)⟩
      rw [KernelList.insertBehind,if_pos hxy,List.filter_append]
      by_cases hx : compare c x = 0
      · have hnone : (y :: ys).filter (fun z => compare c z = 0) = [] := by
          rw [List.filter_eq_nil_iff]
          intro z hz hcz
          have := hbigger z hz
          have := hc.eq_of_eq hx (of_decide_eq_true hcz)
          omega
        rw [List.filter_cons_of_pos (by simpa using hx),hnone]
        simp [hx]
      · simp [hx]
    · rw [KernelList.insertBehind,if_neg hxy,List.cons_append,List.filter_cons,List.filter_cons,
        ih hys]

end TotalPreorder

/-- `xs` is what a stable priority queue holds after the items of `queue` were put in, in
this order. -/
structure Ordered (compare : T → T → ℤ) (xs queue : List T) : Prop where
  nodup : queue.Nodup
  perm : xs.Perm queue
  sorted : xs.Pairwise fun a b => compare a b ≤ 0
  stable : ∀ c, xs.filter (fun y => compare c y = 0) = queue.filter fun y => compare c y = 0

namespace Ordered

variable {xs queue : List T}

omit [DecidableEq T] in
theorem insert (ho : Ordered compare xs queue) (hc : TotalPreorder compare) (hx : x ∉ queue) :
    Ordered compare (KernelList.insertBehind compare x xs) (queue ++ [x]) where
  nodup := by
    rw [← List.concat_eq_append]
    exact ho.nodup.concat hx
  perm := by
    refine (KernelList.insertBehind_perm compare x xs).trans ?_
    exact (ho.perm.cons x).trans (List.perm_append_singleton x queue).symm
  sorted := KernelList.pairwise_insertBehind ho.sorted (fun _ _ => hc.le_of_not_lt)
    (fun _ _ h => h.le) fun _ _ hxy hyz => (hc.lt_of_lt_of_le hxy hyz).le
  stable c := by rw [hc.filter_insertBehind ho.sorted,List.filter_append,List.filter_append,ho.stable]

theorem erase (ho : Ordered compare xs queue) (x : T) :
    Ordered compare (xs.erase x) (queue.erase x) where
  nodup := ho.nodup.erase x
  perm := ho.perm.erase x
  sorted := ho.sorted.sublist List.erase_sublist
  stable c := by
    have hxs : xs.Nodup := ho.perm.nodup_iff.mpr ho.nodup
    rw [hxs.erase_eq_filter,ho.nodup.erase_eq_filter,List.filter_comm,ho.stable,List.filter_comm]

omit [DecidableEq T] in
/-- The front is a minimum, and of those that compare equal to it the first that was put in. -/
theorem front (ho : Ordered compare (x :: xs) queue) (hc : TotalPreorder compare) :
    (∀ y ∈ queue, compare x y ≤ 0) ∧ queue.find? (fun y => compare x y = 0) = some x := by
  obtain ⟨hmin,-⟩ := List.pairwise_cons.mp ho.sorted
  constructor
  · intro y hy
    rcases List.mem_cons.mp (ho.perm.mem_iff.mpr hy) with rfl | hy
    · exact (hc.refl y).le
    · exact hmin y hy
  · rw [← List.head?_filter,← ho.stable x,List.filter_cons_of_pos (by simpa using hc.refl x)]
    rfl

end Ordered

omit [DecidableEq T] in
theorem sortedFrom_eq {h : Store T} {p : Option ℕ} {n : ℕ} (hb : h b = some ⟨p,y⟩)
    (hs : LinkedCells.Segment h p cs none)
    (hsorted : (y :: items cs).Pairwise fun a b => compare a b ≤ 0)
    (hn : cs.length < n) : sortedFrom compare h n (some b) p = .ok () := by
  induction cs generalizing b y p n with
  | nil =>
    obtain ⟨n,rfl⟩ : ∃ m, n = m + 1 := ⟨n - 1,by omega⟩
    obtain rfl : p = none := hs
    rfl
  | cons c cs ih =>
    obtain ⟨n,rfl⟩ : ∃ m, n = m + 1 := ⟨n - 1,by omega⟩
    obtain ⟨d,z⟩ := c
    obtain ⟨rfl,next,hd,hs⟩ := hs
    obtain ⟨hy,hrest⟩ := List.pairwise_cons.mp hsorted
    have hyz : compare y z ≤ 0 := hy z List.mem_cons_self
    have hnext := ih (n := n) hd hs hrest (by simpa using hn)
    simp [sortedFrom,load_of hb,load_of hd,hyz,hnext,bind,Except.bind]

omit [DecidableEq T] in
theorem SanityCheck_eq (hr : Represents h.cells l cs)
    (hsorted : (items cs).Pairwise fun a b => compare a b ≤ 0) :
    SanityCheck compare h l = .ok () := by
  unfold SanityCheck
  rw [LinkedList.SanityCheck_eq hr]
  by_cases hends : l.first = l.last
  · simp [hends,bind,Except.bind,pure,Except.pure]
  · cases cs with
    | nil => exact absurd (hr.chain.trans hr.last.symm) hends
    | cons c cs =>
      obtain ⟨hfirst,next,hc,hs⟩ := hr.chain
      have hrest := sortedFrom_eq hc hs hsorted (Nat.lt_of_succ_le hr.length_le)
      rw [hfirst] at hends
      simp [hends,hfirst,load_of hc,hrest,bind,Except.bind]

/-! Runs of the operations on a sorted list. -/

inductive Operation (T : Type)
  | insert (item : T)
  | remove (item : T)
  | removeFront
  deriving DecidableEq, Repr

/-- `queue` has the items on the list in the order in which they were put in. -/
structure State (T : Type) where
  heap : Heap T
  list : LinkedList
  queue : List T

def step (compare : T → T → ℤ) (malloc : Allocator T heapPlaces) (s : State T) :
    Operation T → Except Fault (State T)
  | .insert x => do
    require (x ∉ s.queue)
    let (heap,list) ← Insert compare malloc s.heap s.list x
    return ⟨heap,list,s.queue ++ [x]⟩
  | .remove x => do
    require (x ∈ s.queue)
    let (heap,list) ← Remove s.heap s.list x
    return ⟨heap,list,s.queue.erase x⟩
  | .removeFront => do
    require (s.queue ≠ [])
    let (x,heap,list) ← RemoveFront s.heap s.list
    return ⟨heap,list,s.queue.erase x⟩

def machine (compare : T → T → ℤ) (malloc : Allocator T heapPlaces) :
    Machine (State T) (Operation T) where
  initial s := s.list = .new ∧ s.queue = []
  step := step compare malloc

structure State.Inv (compare : T → T → ℤ) (s : State T) (cs : List (ℕ × T)) : Prop where
  represents : Represents s.heap.cells s.list cs
  ordered : Ordered compare (items cs) s.queue

variable {s t : State T} {malloc : Allocator T heapPlaces}

theorem State.Inv.insert (malloc : Allocator T heapPlaces) (hi : s.Inv compare cs)
    (hc : TotalPreorder compare) (hx : x ∉ s.queue)
    (hroom : HasRoom s.heap) : ∃ t ds, step compare malloc s (.insert x) = .ok t ∧
      t.queue = s.queue ++ [x] ∧ t.Inv compare ds ∧ places cs ⊆ places ds ∧
      ∀ b, b ∉ places ds → t.heap.cells b = s.heap.cells b := by
  have hnot : x ∉ items cs := fun hm => hx (hi.ordered.perm.mem_iff.mp hm)
  obtain ⟨h',l',ds,hrun,hr',hds,hsub,hframe⟩ :=
    Insert_spec compare malloc hi.represents (KernelList.insert_ok.mpr ⟨hnot,rfl⟩) hroom
  refine ⟨⟨h',l',s.queue ++ [x]⟩,ds,?_,rfl,⟨hr',?_⟩,hsub,hframe⟩
  · simp [step,hx,hrun,bind,Except.bind,pure,Except.pure]
  · rw [hds]
    exact hi.ordered.insert hc hx

theorem State.Inv.remove (hi : s.Inv compare cs) (hx : x ∈ s.queue) :
    ∃ t ds, step compare malloc s (.remove x) = .ok t ∧ t.queue = s.queue.erase x ∧
      t.Inv compare ds := by
  have hmem : x ∈ items cs := hi.ordered.perm.mem_iff.mpr hx
  have hnodup : (items cs).Nodup := hi.ordered.perm.nodup_iff.mpr hi.ordered.nodup
  have hop : (LinkedList.Operation.remove x).onSequence (items cs) = .ok ((items cs).erase x) :=
    LinkedList.Operation.onSequence_ok.mpr ⟨hmem,rfl⟩
  obtain ⟨h',l',ds,hrun,hr',hds,-⟩ :=
    LinkedList.Operation.onList_spec malloc hi.represents hnodup hop
      (by simp [LinkedList.Operation.adds])
  refine ⟨⟨h',l',s.queue.erase x⟩,ds,?_,rfl,hr',?_⟩
  · have hrun : Remove s.heap s.list x = .ok (h',l') := hrun
    simp [step,hx,hrun,bind,Except.bind,pure,Except.pure]
  · rw [hds]
    exact hi.ordered.erase x

theorem State.Inv.removeFront (hi : s.Inv compare cs) (hc : TotalPreorder compare)
    (hne : s.queue ≠ []) : ∃ x h l t ds, RemoveFront s.heap s.list = .ok (x,h,l) ∧
      (∀ y ∈ s.queue, compare x y ≤ 0) ∧ s.queue.find? (fun y => compare x y = 0) = some x ∧
      step compare malloc s .removeFront = .ok t ∧ t.queue = s.queue.erase x ∧
      t.Inv compare ds := by
  cases cs with
  | nil => exact absurd hi.ordered.perm.nil_eq.symm hne
  | cons c cs =>
    obtain ⟨l',hrun,hr'⟩ := RemoveFront_spec hi.represents
    obtain ⟨hmin,hfirst⟩ := hi.ordered.front hc
    refine ⟨c.2,_,l',⟨{ s.heap with cells := Function.update s.heap.cells c.1 none },l',
      s.queue.erase c.2⟩,cs,hrun,hmin,hfirst,?_,rfl,hr',?_⟩
    · simp [step,hne,hrun,bind,Except.bind,pure,Except.pure]
    · simpa using hi.ordered.erase c.2

theorem inv_step {op : Operation T} (hi : s.Inv compare cs) (hc : TotalPreorder compare)
    (hstep : step compare malloc s op = .ok t) : ∃ ds, t.Inv compare ds := by
  cases op with
  | insert x =>
    obtain ⟨hx,hrest⟩ := require_bind_ok.mp hstep
    obtain ⟨_,hrun,-⟩ := bind_ok.mp hrest
    obtain ⟨_,hnew,-⟩ := bind_ok.mp hrun
    obtain ⟨t',ds,hstep',-,ht,-⟩ := hi.insert malloc hc hx (hasRoom_of_newElement malloc hnew)
    cases hstep.symm.trans hstep'
    exact ⟨ds,ht⟩
  | remove x =>
    obtain ⟨hx,-⟩ := require_bind_ok.mp hstep
    obtain ⟨t',ds,hstep',-,ht⟩ := hi.remove hx
    cases hstep.symm.trans hstep'
    exact ⟨ds,ht⟩
  | removeFront =>
    obtain ⟨hne,-⟩ := require_bind_ok.mp hstep
    obtain ⟨_,_,_,t',ds,-,-,-,hstep',-,ht⟩ := hi.removeFront hc hne
    cases hstep.symm.trans hstep'
    exact ⟨ds,ht⟩

theorem reachable_inv (hc : TotalPreorder compare) (hs : (machine compare malloc).Reachable s) :
    ∃ cs, s.Inv compare cs := by
  refine hs.invariant (P := fun s => ∃ cs, s.Inv compare cs) ?_ ?_
  · rintro ⟨heap,list,queue⟩ ⟨rfl,rfl⟩
    exact ⟨[],represents_new _,List.nodup_nil,List.Perm.nil,List.Pairwise.nil,fun _ => rfl⟩
  · rintro s op t ⟨cs,hi⟩ hstep
    exact inv_step hi hc hstep

/-- After any operations, the list is well formed and holds the items that were put in and
not taken out, sorted and, where they compare equal, in the order in which they were put in.
Every operation that is allowed succeeds, and `RemoveFront` returns the first of the
minimal items. -/
theorem sortedList_is_priority_queue (hc : TotalPreorder compare)
    (hs : (machine compare malloc).Reachable s) :
    (∃ cs, Represents s.heap.cells s.list cs ∧ (items cs).Perm s.queue ∧ s.queue.Nodup ∧
      ((items cs).Pairwise fun a b => compare a b ≤ 0) ∧
      ∀ c, (items cs).filter (fun y => compare c y = 0) = s.queue.filter fun y => compare c y = 0) ∧
    SanityCheck compare s.heap s.list = .ok () ∧
    (∀ x, x ∉ s.queue → HasRoom s.heap →
      ∃ t, step compare malloc s (.insert x) = .ok t ∧ t.queue = s.queue ++ [x]) ∧
    (∀ x ∈ s.queue, ∃ t, step compare malloc s (.remove x) = .ok t ∧ t.queue = s.queue.erase x) ∧
    (s.queue ≠ [] → ∃ x h l t, RemoveFront s.heap s.list = .ok (x,h,l) ∧
      (∀ y ∈ s.queue, compare x y ≤ 0) ∧ s.queue.find? (fun y => compare x y = 0) = some x ∧
      step compare malloc s .removeFront = .ok t ∧ t.queue = s.queue.erase x) := by
  obtain ⟨cs,hi⟩ := reachable_inv hc hs
  have ho := hi.ordered
  refine ⟨⟨cs,hi.represents,ho.perm,ho.nodup,ho.sorted,ho.stable⟩,
    SanityCheck_eq hi.represents ho.sorted,fun x hx hroom => ?_,fun x hx => ?_,fun hne => ?_⟩
  · obtain ⟨t,-,hstep,hqueue,-⟩ := hi.insert malloc hc hx hroom
    exact ⟨t,hstep,hqueue⟩
  · obtain ⟨t,-,hstep,hqueue,-⟩ := hi.remove hx
    exact ⟨t,hstep,hqueue⟩
  · obtain ⟨x,h,l,t,-,hrun,hmin,hfirst,hstep,hqueue,-⟩ := hi.removeFront hc hne
    exact ⟨x,h,l,t,hrun,hmin,hfirst,hstep,hqueue⟩

/-- Different items can be put into a list that has the heap to itself, one after the other. -/
theorem run_inserts (malloc : Allocator T heapPlaces) (hc : TotalPreorder compare) {xs : List T}
    (hi : s.Inv compare cs) (halone : ∀ b, b ∉ places cs → s.heap.cells b = none)
    (hnodup : (s.queue ++ xs).Nodup) (hsize : (s.queue ++ xs).length ≤ heapPlaces) :
    ∃ t, (machine compare malloc).run s (xs.map .insert) = .ok t ∧ t.queue = s.queue ++ xs := by
  induction xs generalizing s cs with
  | nil => exact ⟨s,rfl,(List.append_nil _).symm⟩
  | cons x xs ih =>
    have hx : x ∉ s.queue := fun hm =>
      (List.nodup_append.mp hnodup).2.2 x hm x List.mem_cons_self rfl
    have hlength := hi.ordered.perm.length_eq
    simp only [List.length_append,List.length_cons,List.length_map] at hsize hlength
    obtain ⟨t,ds,hstep,hqueue,ht,hsub,hframe⟩ :=
      hi.insert malloc hc hx (hasRoom_of_alone halone (by omega))
    have halone' : ∀ b, b ∉ places ds → t.heap.cells b = none := by
      intro b hb
      rw [hframe b hb,halone b fun hm => hb (hsub hm)]
    have happend : t.queue ++ xs = s.queue ++ x :: xs := by simp [hqueue]
    obtain ⟨u,hu,hqueue'⟩ := ih ht halone' (happend ▸ hnodup) (by rw [happend]; simp; omega)
    refine ⟨u,(machine compare malloc).run_cons_ok.mpr ⟨t,hstep,hu⟩,hqueue'.trans happend⟩

/-- Pairs by their first component only. -/
def byFirst (x y : ℕ × ℕ) : ℤ := x.1 - y.1

theorem byFirst_preorder : TotalPreorder byFirst where
  swap x y := by
    unfold byFirst
    omega
  trans x y z := by
    unfold byFirst
    omega

theorem sortedList_is_priority_queue_pairs : ∃ s x h l,
    (machine byFirst (firstFree (ℕ × ℕ) heapPlaces)).run ⟨⟨fun _ => none,0⟩,.new,[]⟩
      [.insert (2,0),.insert (1,0),.insert (1,1)] = .ok s ∧
    RemoveFront s.heap s.list = .ok (x,h,l) ∧ x = (1,0) := by
  have hi : State.Inv byFirst ⟨⟨fun _ => none,0⟩,.new,[]⟩ [] :=
    ⟨represents_new _,List.nodup_nil,List.Perm.nil,List.Pairwise.nil,fun _ => rfl⟩
  have hnodup : ([] ++ [(2,0),(1,0),(1,1)] : List (ℕ × ℕ)).Nodup := by decide
  obtain ⟨s,hrun,hqueue⟩ := run_inserts (firstFree (ℕ × ℕ) heapPlaces) byFirst_preorder hi
    (fun _ _ => rfl) hnodup (by decide)
  have hs := Machine.Reachable.run
    (.start (M := machine byFirst (firstFree (ℕ × ℕ) heapPlaces)) ⟨rfl,rfl⟩) hrun
  obtain ⟨-,-,-,-,hfront⟩ := sortedList_is_priority_queue byFirst_preorder hs
  obtain ⟨x,h,l,-,hfront,hmin,hfirst,-⟩ := hfront (by simp [hqueue])
  refine ⟨s,x,h,l,hrun,hfront,?_⟩
  rw [hqueue] at hmin hfirst
  have hx := List.mem_of_find?_eq_some hfirst
  simp only [List.nil_append,List.mem_cons,List.not_mem_nil,or_false] at hx
  rcases hx with rfl | rfl | rfl
  · exact absurd (hmin (1,0) (by decide)) (by decide)
  · rfl
  · exact absurd hfirst (by decide)

end SortedList
end NachOS
