import NachOS.Inventory
import NachOS.LinkedList

/-! `HashTable<Key,T>` (lib/hash.h, lib/hash.cc): an array of lists that grows with the number
of items.  All lists have their cells on one heap. -/
namespace NachOS

open StateMachine Memory LinkedCells LinkedList

structure HashTable where
  buckets : ℕ → LinkedList
  numBuckets : ℤ
  numItems : ℤ

namespace HashTable

abbrev InitialBuckets : ℤ := 4

abbrev ResizeRatio : ℤ := 3

abbrev IncreaseSizeBy : ℤ := 4

section Operations

variable {Key T : Type} [DecidableEq Key] [DecidableEq T] (getKey : T → Key)
  (hash : Key → BitVec 32) (malloc : Allocator T heapPlaces)

/-- `buckets[i]`. -/
def bucket (t : HashTable) (i : ℤ) : Except Fault LinkedList := do
  inBounds (0 ≤ i ∧ i < t.numBuckets)
  return t.buckets i.toNat

def setBucket (t : HashTable) (i : ℤ) (l : LinkedList) : HashTable :=
  { t with buckets := Function.update t.buckets i.toNat l }

def InitBuckets (t : HashTable) (sz : ℤ) : Except Fault HashTable := do
  inBounds (0 ≤ sz)
  return { t with buckets := fun _ => .new, numBuckets := sz }

/-- The constructor. -/
def new : HashTable := ⟨fun _ => .new,InitialBuckets,0⟩

/-- The remainder is that of unsigned numbers. -/
def HashValue (t : HashTable) (key : Key) : Except Fault ℤ := do
  inBounds (t.numBuckets ≠ 0)
  let result := wrap ((hash key).toNat % (BitVec.ofInt 32 t.numBuckets).toNat : ℕ)
  check (result ≥ 0 ∧ result < t.numBuckets)
  return result

/-- The loop of `FindInBucket`. -/
def findFrom (h : Store T) (key : Key) : ℕ → Option ℕ → Except Fault (Option T)
  | 0, _ => .error .blocked
  | _ + 1, none => .ok none
  | n + 1, some a => do
    let c ← load h (some a)
    if key = getKey c.item then return some c.item else findFrom h key n c.next

/-- The result is the item, or nothing for `FALSE`. -/
def FindInBucket (h : Heap T) (t : HashTable) (bucket : ℤ) (key : Key) :
    Except Fault (Option T) := do
  let l ← t.bucket bucket
  findFrom getKey h.cells key (heapPlaces + 1) l.first

def Find (h : Heap T) (t : HashTable) (key : Key) : Except Fault (Option T) := do
  let bucket ← HashValue hash t key
  FindInBucket getKey h t bucket key

def IsInTable (h : Heap T) (t : HashTable) (key : Key) : Except Fault Bool := do
  let found ← Find getKey hash h t key
  return found.isSome

/-- The loop of `SanityCheck` over the items of bucket `i`. -/
def sanityItems (h : Store T) (t : HashTable) (i : ℕ) : ℕ → Option ℕ → Except Fault Unit
  | 0, _ => .error .blocked
  | _ + 1, none => .ok ()
  | n + 1, some a => do
    let c ← load h (some a)
    let value ← HashValue hash t (getKey c.item)
    check (i = value)
    sanityItems h t i n c.next

/-- The loop of `SanityCheck` over buckets `i` to `i + n - 1`. -/
def sanityFrom (h : Heap T) (t : HashTable) (i : ℕ) : ℕ → ℤ → Except Fault ℤ
  | 0, numFound => return numFound
  | n + 1, numFound => do
    LinkedList.SanityCheck h (t.buckets i)
    sanityItems getKey hash h.cells t i (heapPlaces + 1) (t.buckets i).first
    sanityFrom h t (i + 1) n (wrap (numFound + (t.buckets i).numInList))

def SanityCheck (h : Heap T) (t : HashTable) : Except Fault Unit := do
  let numFound ← sanityFrom getKey hash h t 0 t.numBuckets.toNat 0
  check (t.numItems = numFound)

/-- `buckets[HashValue(getKey(item))]->Append(item)`. -/
def appendItem (h : Heap T) (t : HashTable) (item : T) : Except Fault (Heap T × HashTable) := do
  let bucket ← HashValue hash t (getKey item)
  let l ← t.bucket bucket
  let (h,l) ← Append malloc h l item
  return (h,t.setBucket bucket l)

/-- The inner loop of `ReHash`, which empties one old bucket. -/
def moveItems : ℕ → LinkedList → Heap T → HashTable → Except Fault (Heap T × HashTable)
  | 0, _, _, _ => .error .blocked
  | n + 1, old, h, t =>
    if old.IsEmpty then return (h,t)
    else do
      let (item,h,old) ← RemoveFront h old
      let (h,t) ← appendItem getKey hash malloc h t item
      moveItems n old h t

/-- The outer loop of `ReHash`, over old buckets `i` to `i + n - 1`. -/
def moveFrom (oldTable : ℕ → LinkedList) (i : ℕ) :
    ℕ → Heap T → HashTable → Except Fault (Heap T × HashTable)
  | 0, h, t => return (h,t)
  | n + 1, h, t => do
    let (h,t) ← moveItems getKey hash malloc ((oldTable i).numInList.toNat + 1) (oldTable i) h t
    moveFrom oldTable (i + 1) n h t

def ReHash (h : Heap T) (t : HashTable) : Except Fault (Heap T × HashTable) := do
  let oldTable := t.buckets
  let oldSize := t.numBuckets
  SanityCheck getKey hash h t
  let t ← InitBuckets t (wrap (t.numBuckets * IncreaseSizeBy))
  let (h,t) ← moveFrom getKey hash malloc oldTable 0 oldSize.toNat h t
  SanityCheck getKey hash h t
  return (h,t)

def grown (h : Heap T) (t : HashTable) : Except Fault (Heap T × HashTable) := do
  inBounds (t.numBuckets ≠ 0)
  if t.numItems.tdiv t.numBuckets ≥ ResizeRatio then ReHash getKey hash malloc h t
  else return (h,t)

def Insert (h : Heap T) (t : HashTable) (item : T) : Except Fault (Heap T × HashTable) := do
  let key := getKey item
  let found ← IsInTable getKey hash h t key
  check (found = false)
  let (h,t) ← grown getKey hash malloc h t
  let (h,t) ← appendItem getKey hash malloc h t item
  let t := { t with numItems := wrap (t.numItems + 1) }
  let found ← IsInTable getKey hash h t key
  check (found = true)
  return (h,t)

def Remove (h : Heap T) (t : HashTable) (key : Key) : Except Fault (T × Heap T × HashTable) := do
  let bucket ← HashValue hash t key
  let found ← FindInBucket getKey h t bucket key
  match found with
  | none => .error .assertion
  | some item =>
    let l ← t.bucket bucket
    let (h,l) ← LinkedList.Remove h l item
    let t := { t.setBucket bucket l with numItems := wrap (t.numItems - 1) }
    let found ← IsInTable getKey hash h t key
    check (found = false)
    return (item,h,t)

end Operations

variable {Key T : Type} {getKey : T → Key} {hash : Key → BitVec 32}

/-- The cells of buckets `0` to `n - 1`. -/
def all (cells : ℕ → List (ℕ × T)) (n : ℕ) : List (ℕ × T) := (List.range n).flatMap cells

variable {h h' : Heap T} {t : HashTable} {n i : ℕ} {cells : ℕ → List (ℕ × T)} {key : Key} {x : T}
  {cs : List (ℕ × T)}

theorem length_of_items {cs ds : List (ℕ × T)} (h : (items cs).Perm (items ds)) :
    cs.length = ds.length := by
  simpa using h.length_eq

theorem mem_all {c : ℕ × T} : c ∈ all cells n ↔ ∃ i, i < n ∧ c ∈ cells i := by
  simp [all]

/-- The cells of all buckets but `i` stay when that one gets others. -/
theorem all_update_perm (cells : ℕ → List (ℕ × T)) (hi : i < n) (cs : List (ℕ × T)) :
    (all (Function.update cells i cs) n).Perm (cs ++ all (Function.update cells i []) n) := by
  have hrest : ∀ j, j < n → j ≠ i → Function.update cells i cs j = Function.update cells i [] j := by
    intro j _ hj
    rw [Function.update_of_ne hj,Function.update_of_ne hj]
  have hperm := Inventory.flatMap_range_perm hi (Function.update_self ..) hrest
  rwa [Function.update_self] at hperm

theorem all_perm (cells : ℕ → List (ℕ × T)) (hi : i < n) :
    (all cells n).Perm (cells i ++ all (Function.update cells i []) n) := by
  have hperm := all_update_perm cells hi (cells i)
  rwa [Function.update_eq_self] at hperm

/-- Every bucket is a list, with the cells that belong there; no two cells are at one place,
no two items have one key. -/
structure Buckets (getKey : T → Key) (hash : Key → BitVec 32) (h : Store T) (t : HashTable)
    (n : ℕ) (cells : ℕ → List (ℕ × T)) : Prop where
  size : t.numBuckets = n
  positive : 0 < n
  small : n < 2 ^ 31
  list : ∀ i, i < n → Represents h (t.buckets i) (cells i)
  hashed : ∀ i, i < n → ∀ x ∈ items (cells i), (hash (getKey x)).toNat % n = i
  places_nodup : (places (all cells n)).Nodup
  keys_nodup : ((items (all cells n)).map getKey).Nodup

namespace Buckets

variable (hb : Buckets getKey hash h.cells t n cells)
include hb

theorem HashValue_eq (key : Key) :
    HashValue hash t key = .ok ((hash key).toNat % n : ℕ) := by
  have hlt := Nat.mod_lt (hash key).toNat hb.positive
  have hsmall := hb.small
  have hunsigned : (BitVec.ofInt 32 t.numBuckets).toNat = n := by
    rw [hb.size,BitVec.toNat_ofInt]
    omega
  have hwrap : wrap ((hash key).toNat % n : ℕ) = ((hash key).toNat % n : ℕ) :=
    wrap_of_range (by omega) (by omega)
  have hne : t.numBuckets ≠ 0 := by
    rw [hb.size]
    have := hb.positive
    omega
  have hrange : (((hash key).toNat % n : ℕ) : ℤ) ≥ 0 ∧
      (((hash key).toNat % n : ℕ) : ℤ) < t.numBuckets := by
    rw [hb.size]
    omega
  unfold HashValue
  rw [inBounds_of hne,hunsigned,hwrap]
  simp only [bind,Except.bind,check_of hrange]
  rfl

theorem bucket_eq (hi : i < n) : t.bucket i = .ok (t.buckets i) := by
  have hrange : 0 ≤ (i : ℤ) ∧ (i : ℤ) < t.numBuckets := by
    rw [hb.size]
    omega
  unfold bucket
  rw [inBounds_of hrange]
  simp [bind,Except.bind,pure,Except.pure]

theorem congr (heq : ∀ b ∈ places (all cells n), h'.cells b = h.cells b) :
    Buckets getKey hash h'.cells t n cells :=
  { hb with
    list := fun i hi => (hb.list i hi).congr fun b hm => by
      obtain ⟨c,hc,rfl⟩ := List.mem_map.mp hm
      exact heq c.1 (List.mem_map_of_mem (mem_all.mpr ⟨i,hi,hc⟩)) }

theorem inUse {b : ℕ} (hm : b ∈ places (all cells n)) : h.cells b ≠ none ∧ b < heapPlaces := by
  obtain ⟨c,hc,rfl⟩ := List.mem_map.mp hm
  obtain ⟨i,hi,hc⟩ := mem_all.mp hc
  have hr := hb.list i hi
  have hm := List.mem_map_of_mem (f := Prod.fst) hc
  exact ⟨hr.chain.inUse hm,hr.bounded _ hm⟩

/-- There are no more items than places for their cells. -/
theorem length_le : (all cells n).length ≤ heapPlaces := by
  have hsub : places (all cells n) ⊆ List.range heapPlaces := fun b hm =>
    List.mem_range.mpr (hb.inUse hm).2
  have hle := (hb.places_nodup.subperm hsub).length_le
  rw [List.length_range] at hle
  simpa using hle

theorem withNumItems (k : ℤ) :
    Buckets getKey hash h.cells { t with numItems := k } n cells := { hb with }

/-- Two buckets have no cell in common. -/
theorem apart {j b : ℕ} (hi : i < n) (hj : j < n) (hji : j ≠ i) (hm : b ∈ places (cells j)) :
    b ∉ places (cells i) := by
  have hnodup := ((all_perm cells hi).map Prod.fst).nodup_iff.mp hb.places_nodup
  rw [List.map_append] at hnodup
  obtain ⟨c,hc,rfl⟩ := List.mem_map.mp hm
  have hrest : c ∈ all (Function.update cells i []) n :=
    mem_all.mpr ⟨j,hj,by rwa [Function.update_of_ne hji]⟩
  exact fun hmi => List.disjoint_of_nodup_append hnodup hmi (List.mem_map_of_mem hrest)

/-- Bucket `i` gets the cells `cs`. -/
theorem set {l : LinkedList} (hi : i < n) (hr : Represents h'.cells l cs)
    (hhash : ∀ x ∈ items cs, (hash (getKey x)).toNat % n = i)
    (hkeep : ∀ j, j < n → j ≠ i → ∀ b ∈ places (cells j), h'.cells b = h.cells b)
    (hplaces : (places (cs ++ all (Function.update cells i []) n)).Nodup)
    (hkeys : ((items (cs ++ all (Function.update cells i []) n)).map getKey).Nodup) :
    Buckets getKey hash h'.cells (t.setBucket i l) n (Function.update cells i cs) where
  size := hb.size
  positive := hb.positive
  small := hb.small
  list j hj := by
    simp only [setBucket,Int.toNat_natCast]
    by_cases hji : j = i
    · subst hji
      simpa using hr
    · rw [Function.update_of_ne hji,Function.update_of_ne hji]
      exact (hb.list j hj).congr (hkeep j hj hji)
  hashed j hj := by
    by_cases hji : j = i
    · subst hji
      simpa using hhash
    · rw [Function.update_of_ne hji]
      exact hb.hashed j hj
  places_nodup := ((all_update_perm cells hi cs).map Prod.fst).nodup_iff.mpr hplaces
  keys_nodup := (((all_update_perm cells hi cs).map Prod.snd).map getKey).nodup_iff.mpr hkeys

/-- An item is stored in the bucket of its key. -/
theorem mem_bucket :
    x ∈ items (all cells n) ↔ x ∈ items (cells ((hash (getKey x)).toNat % n)) := by
  constructor
  · intro hx
    obtain ⟨c,hc,rfl⟩ := List.mem_map.mp hx
    obtain ⟨j,hj,hc⟩ := mem_all.mp hc
    have hm : c.2 ∈ items (cells j) := List.mem_map_of_mem hc
    rwa [hb.hashed j hj c.2 hm]
  · intro hx
    obtain ⟨c,hc,hcx⟩ := List.mem_map.mp hx
    exact List.mem_map.mpr ⟨c,mem_all.mpr ⟨_,Nat.mod_lt _ hb.positive,hc⟩,hcx⟩

theorem eq_of_key {y : T} (hx : x ∈ items (all cells n)) (hy : y ∈ items (all cells n))
    (he : getKey x = getKey y) : x = y :=
  List.inj_on_of_nodup_map hb.keys_nodup hx hy he

end Buckets

/-! Looking up a key. -/

section Find

variable [DecidableEq Key]

theorem findFrom_eq {h : Store T} {p : Option ℕ} {m : ℕ} (hs : LinkedCells.Segment h p cs none)
    (hm : cs.length < m) :
    findFrom getKey h key m p = .ok ((items cs).find? fun x => key = getKey x) := by
  induction cs generalizing p m with
  | nil =>
    obtain ⟨m,rfl⟩ : ∃ k, m = k + 1 := ⟨m - 1,by omega⟩
    obtain rfl : p = none := hs
    rfl
  | cons c cs ih =>
    obtain ⟨m,rfl⟩ : ∃ k, m = k + 1 := ⟨m - 1,by omega⟩
    obtain ⟨a,y⟩ := c
    obtain ⟨rfl,next,ha,hs⟩ := hs
    have hrest := ih (m := m) hs (by simpa using hm)
    by_cases hy : key = getKey y
    · simp [findFrom,load_of ha,hy,bind,Except.bind,pure,Except.pure]
    · simp [findFrom,load_of ha,hy,hrest,bind,Except.bind]

variable (hb : Buckets getKey hash h.cells t n cells)
include hb

theorem Buckets.FindInBucket_eq (key : Key) :
    ∃ found, FindInBucket getKey h t ((hash key).toNat % n : ℕ) key = .ok found ∧
      ∀ x, found = some x ↔ x ∈ items (all cells n) ∧ getKey x = key := by
  have hi := Nat.mod_lt (hash key).toNat hb.positive
  have hr := hb.list _ hi
  refine ⟨(items (cells ((hash key).toNat % n))).find? fun x => key = getKey x,?_,
    fun x => ⟨fun hfind => ?_,?_⟩⟩
  · unfold FindInBucket
    rw [hb.bucket_eq hi]
    exact findFrom_eq hr.chain (Nat.lt_succ_of_le hr.length_le)
  · have hkey : key = getKey x := by simpa using List.find?_some hfind
    refine ⟨hb.mem_bucket.mpr ?_,hkey.symm⟩
    rw [← hkey]
    exact List.mem_of_find?_eq_some hfind
  · rintro ⟨hx,rfl⟩
    have hm := hb.mem_bucket.mp hx
    cases hfind : (items (cells ((hash (getKey x)).toNat % n))).find?
        fun y => getKey x = getKey y with
    | none =>
      have hnot := List.find?_eq_none.mp hfind x hm
      simp at hnot
    | some y =>
      have hkey : getKey x = getKey y := by simpa using List.find?_some hfind
      have hy : y ∈ items (all cells n) := by
        rw [hb.mem_bucket,← hkey]
        exact List.mem_of_find?_eq_some hfind
      rw [hb.eq_of_key hx hy hkey]

theorem Buckets.Find_eq (key : Key) :
    ∃ found, Find getKey hash h t key = .ok found ∧
      ∀ x, found = some x ↔ x ∈ items (all cells n) ∧ getKey x = key := by
  obtain ⟨found,hrun,hfound⟩ := hb.FindInBucket_eq key
  refine ⟨found,?_,hfound⟩
  unfold Find
  rw [hb.HashValue_eq]
  exact hrun

theorem Buckets.IsInTable_eq (key : Key) :
    IsInTable getKey hash h t key =
      .ok (decide (key ∈ (items (all cells n)).map getKey)) := by
  obtain ⟨found,hrun,hfound⟩ := hb.Find_eq key
  unfold IsInTable
  rw [hrun]
  simp only [bind,Except.bind,pure,Except.pure,Except.ok.injEq]
  cases found with
  | none =>
    have hnot : key ∉ (items (all cells n)).map getKey := by
      intro hm
      obtain ⟨x,hx,hkey⟩ := List.mem_map.mp hm
      cases (hfound x).mpr ⟨hx,hkey⟩
    simpa using hnot
  | some x =>
    obtain ⟨hx,hkey⟩ := (hfound x).mp rfl
    have hm : key ∈ (items (all cells n)).map getKey := List.mem_map.mpr ⟨x,hx,hkey⟩
    simpa using hm

end Find

/-! The checks of `SanityCheck`. -/

theorem Buckets.sanityItems_eq {p : Option ℕ} {m : ℕ} (hb : Buckets getKey hash h.cells t n cells)
    (hs : LinkedCells.Segment h.cells p cs none)
    (hhash : ∀ x ∈ items cs, (hash (getKey x)).toNat % n = i)
    (hm : cs.length < m) : sanityItems getKey hash h.cells t i m p = .ok () := by
  induction cs generalizing p m with
  | nil =>
    obtain ⟨m,rfl⟩ : ∃ k, m = k + 1 := ⟨m - 1,by omega⟩
    obtain rfl : p = none := hs
    rfl
  | cons c cs ih =>
    obtain ⟨m,rfl⟩ : ∃ k, m = k + 1 := ⟨m - 1,by omega⟩
    obtain ⟨a,y⟩ := c
    obtain ⟨rfl,next,ha,hs⟩ := hs
    obtain ⟨hy,hrest⟩ := List.forall_mem_cons.mp hhash
    have hvalue : HashValue hash t (getKey y) = .ok i := by rw [hb.HashValue_eq,hy]
    have hnext := ih (m := m) hs hrest (by simpa using hm)
    simp [sanityItems,load_of ha,hvalue,hnext,bind,Except.bind]

theorem Buckets.sanityFrom_eq {m k : ℕ} (hb : Buckets getKey hash h.cells t n cells)
    (him : i + m ≤ n) (hk : k + ((List.range' i m).flatMap cells).length ≤ heapPlaces) :
    sanityFrom getKey hash h t i m k =
      .ok (k + ((List.range' i m).flatMap cells).length : ℕ) := by
  induction m generalizing i k with
  | zero => rfl
  | succ m ih =>
    rw [List.range'_succ,List.flatMap_cons,List.length_append] at hk ⊢
    have hr := hb.list i (by omega)
    have hitems := hb.sanityItems_eq hr.chain (hb.hashed i (by omega))
      (Nat.lt_succ_of_le hr.length_le)
    have hwrap : wrap (k + (t.buckets i).numInList) = (k + (cells i).length : ℕ) := by
      refine wrap_count ?_ (by omega)
      rw [hr.count]
      norm_num
    have hrest := ih (i := i + 1) (k := k + (cells i).length) (by omega) (by omega)
    unfold sanityFrom
    rw [LinkedList.SanityCheck_eq hr,hitems,hwrap]
    simp only [bind,Except.bind,hrest]
    rw [Nat.add_assoc]

theorem Buckets.SanityCheck_eq (hb : Buckets getKey hash h.cells t n cells)
    (hcount : t.numItems = (all cells n).length) : SanityCheck getKey hash h t = .ok () := by
  have hall : (List.range' 0 n).flatMap cells = all cells n := by rw [all,List.range_eq_range']
  have hfound := hb.sanityFrom_eq (i := 0) (m := n) (k := 0) (by omega)
    (by rw [hall]; have := hb.length_le; omega)
  rw [hall,Nat.cast_zero,Nat.zero_add] at hfound
  have hsize : t.numBuckets.toNat = n := by rw [hb.size,Int.toNat_natCast]
  simp [SanityCheck,hsize,hfound,hcount,bind,Except.bind]

theorem Buckets.InitBuckets_eq (hb : Buckets getKey hash h.cells t n cells)
    (hratio : 3 * n ≤ (all cells n).length) :
    ∃ t₀, InitBuckets t (wrap (t.numBuckets * IncreaseSizeBy)) = .ok t₀ ∧
      t₀.numItems = t.numItems ∧ Buckets getKey hash h.cells t₀ (4 * n) fun _ => [] := by
  have hle := hb.length_le
  have hpos := hb.positive
  norm_num [heapPlaces] at hle
  have hwrap : wrap (t.numBuckets * IncreaseSizeBy) = (4 * n : ℕ) := by
    rw [hb.size,wrap_of_range] <;> push_cast [IncreaseSizeBy] <;> omega
  have hall : all (fun _ => ([] : List (ℕ × T))) (4 * n) = [] := by simp [all]
  refine ⟨{ t with buckets := fun _ => .new, numBuckets := (4 * n : ℕ) },?_,rfl,
    ⟨rfl,by omega,by omega,fun i _ => represents_new _,by simp,by simp [hall],by simp [hall]⟩⟩
  rw [hwrap]
  have hnonneg : 0 ≤ ((4 * n : ℕ) : ℤ) := by omega
  unfold InitBuckets
  rw [inBounds_of hnonneg]
  rfl

/-! Storing an item in its bucket. -/

/-- The places for elements that are left. -/
def free (h : Heap T) : Finset ℕ := (Finset.range heapPlaces).filter fun a => h.cells a = none

theorem mem_free {a : ℕ} : a ∈ free h ↔ a < heapPlaces ∧ h.cells a = none := by
  rw [free,Finset.mem_filter,Finset.mem_range]

theorem hasRoom_iff : HasRoom h ↔ 0 < (free h).card := by
  rw [Finset.card_pos]
  exact exists_congr fun _ => mem_free.symm

theorem card_free_of_taken {h h' : Heap T} {a : ℕ} (ha : a < heapPlaces) (hnone : h.cells a = none)
    (htaken : h'.cells a ≠ none) (hother : ∀ c, c ≠ a → (h'.cells c = none ↔ h.cells c = none)) :
    (free h).card = (free h').card + 1 := by
  have hinsert : free h = insert a (free h') := by
    ext c
    rw [Finset.mem_insert,mem_free,mem_free]
    by_cases hc : c = a
    · rw [hc]
      exact iff_of_true ⟨ha,hnone⟩ (Or.inl rfl)
    · rw [hother c hc]
      exact (or_iff_right hc).symm
  rw [hinsert,Finset.card_insert_of_notMem fun hm => htaken (mem_free.mp hm).2]

/-- The table with one more item has taken one free place. -/
theorem Buckets.card_free_append {h h' : Heap T} {t' : HashTable} {cells' : ℕ → List (ℕ × T)}
    {a : ℕ} (hb : Buckets getKey hash h.cells t n cells)
    (hb' : Buckets getKey hash h'.cells t' n cells') (hnone : h.cells a = none)
    (hperm : (all cells' n).Perm ((a,x) :: all cells n))
    (hframe : ∀ b, b ∉ places (all cells n) → b ≠ a → h'.cells b = h.cells b) :
    (free h).card = (free h').card + 1 := by
  have hmem := fun b => (hperm.map Prod.fst).mem_iff (a := b)
  have htaken := hb'.inUse ((hmem a).mpr List.mem_cons_self)
  refine card_free_of_taken htaken.2 hnone htaken.1 fun c hc => ?_
  by_cases hall : c ∈ places (all cells n)
  · exact iff_of_false (hb'.inUse ((hmem c).mpr (List.mem_cons_of_mem _ hall))).1
      (hb.inUse hall).1
  · rw [hframe c hall hc]

/-- The cells `old` have become the cells `new`: the table counts as many items and as many
places are left, and cells that are in neither are as before. -/
structure Moved (h h' : Heap T) (t t' : HashTable) (old new : List (ℕ × T)) : Prop where
  count : t'.numItems = t.numItems
  perm : (items new).Perm (items old)
  room : (free h').card = (free h).card
  frame : ∀ b, h.cells b ≠ none → b ∉ places old → h'.cells b = h.cells b ∧ b ∉ places new

namespace Moved

variable {t₁ t' : HashTable} {h₁ : Heap T} {old mid new : List (ℕ × T)}

theorem refl (h : Heap T) (t : HashTable) (cs : List (ℕ × T)) : Moved h h t t cs cs :=
  ⟨rfl,List.Perm.refl _,rfl,fun _ _ hout => ⟨rfl,hout⟩⟩

theorem trans (hm : Moved h h₁ t t₁ old mid) (hm' : Moved h₁ h' t₁ t' mid new) :
    Moved h h' t t' old new := by
  refine ⟨hm'.count.trans hm.count,hm'.perm.trans hm.perm,hm'.room.trans hm.room,?_⟩
  intro b hused hout
  obtain ⟨hkept,hmid⟩ := hm.frame b hused hout
  obtain ⟨hkept',hnew⟩ := hm'.frame b (by rwa [hkept]) hmid
  exact ⟨hkept'.trans hkept,hnew⟩

/-- Beside cells that stay, in any order. -/
theorem append (hm : Moved h h' t t' old new) (hperm : mid.Perm (cs ++ old)) :
    Moved h h' t t' mid (cs ++ new) := by
  refine ⟨hm.count,?_,hm.room,fun b hused hout => ?_⟩
  · refine List.Perm.trans ?_ (hperm.map Prod.snd).symm
    rw [items,List.map_append,List.map_append]
    exact hm.perm.append_left _
  · rw [places,(hperm.map Prod.fst).mem_iff,List.map_append,List.mem_append,not_or] at hout
    obtain ⟨hkept,hnew⟩ := hm.frame b hused hout.2
    rw [places,List.map_append,List.mem_append,not_or]
    exact ⟨hkept,hout.1,hnew⟩

end Moved

section Store

variable [DecidableEq T] (malloc : Allocator T heapPlaces)

/-- The new cell is at a place that was free, and changes the cells of its bucket only. -/
theorem Buckets.appendItem_spec (hb : Buckets getKey hash h.cells t n cells)
    (hkey : getKey x ∉ (items (all cells n)).map getKey) (hroom : HasRoom h) :
    ∃ a h' t' cells', appendItem getKey hash malloc h t x = .ok (h',t') ∧ h.cells a = none ∧
      t'.numItems = t.numItems ∧ Buckets getKey hash h'.cells t' n cells' ∧
      (all cells' n).Perm ((a,x) :: all cells n) ∧
      ∀ b, b ∉ places (all cells n) → b ≠ a → h'.cells b = h.cells b := by
  obtain ⟨i,hvalue⟩ : ∃ i, (hash (getKey x)).toNat % n = i := ⟨_,rfl⟩
  have hi : i < n := hvalue ▸ Nat.mod_lt _ hb.positive
  have hsub : cells i ⊆ all cells n := fun c hc => mem_all.mpr ⟨i,hi,hc⟩
  have hx : x ∉ items (cells i) := fun hm =>
    hkey (List.mem_map_of_mem (List.map_subset _ hsub hm))
  obtain ⟨a,h',l,hrun,hnone,hr,hframe⟩ := Append_spec malloc (hb.list i hi) hx hroom
  have hperm : (cells i ++ [(a,x)] ++ all (Function.update cells i []) n).Perm
      ((a,x) :: all cells n) := by
    rw [List.append_assoc,List.singleton_append]
    exact List.perm_middle.trans ((all_perm cells hi).symm.cons _)
  have ha : a ∉ places (all cells n) := fun hm => (hb.inUse hm).1 hnone
  refine ⟨a,h',t.setBucket i l,Function.update cells i (cells i ++ [(a,x)]),?_,hnone,rfl,
    hb.set hi hr ?_ ?_ ?_ ?_,(all_update_perm cells hi _).trans hperm,fun b hout hba => ?_⟩
  · unfold appendItem
    rw [hb.HashValue_eq,hvalue]
    simp only [bind,Except.bind,hb.bucket_eq hi,hrun]
    rfl
  · intro y hy
    rw [items,List.map_append,List.mem_append] at hy
    rcases hy with hy | hy
    · exact hb.hashed i hi y hy
    · obtain rfl : y = x := by simpa using hy
      exact hvalue
  · intro j hj hji b hm
    refine hframe b fun hmi => ?_
    rw [places,List.map_append,List.mem_append] at hmi
    rcases hmi with hmi | hmi
    · exact hb.apart hi hj hji hm hmi
    · obtain rfl : b = a := by simpa using hmi
      exact (hb.list j hj).chain.inUse hm hnone
  · rw [(hperm.map Prod.fst).nodup_iff]
    exact List.nodup_cons.mpr ⟨ha,hb.places_nodup⟩
  · rw [((hperm.map Prod.snd).map getKey).nodup_iff]
    exact List.nodup_cons.mpr ⟨hkey,hb.keys_nodup⟩
  · refine hframe b fun hm => ?_
    rw [places,List.map_append,List.mem_append] at hm
    rcases hm with hm | hm
    · exact hout (List.map_subset _ hsub hm)
    · exact hba (by simpa using hm)

/-- The first item of an old bucket goes to the table. -/
theorem Buckets.moveItem_spec {l : LinkedList} {a : ℕ} (hb : Buckets getKey hash h.cells t n cells)
    (hr : Represents h.cells l ((a,x) :: cs))
    (hplaces : (places ((a,x) :: cs ++ all cells n)).Nodup)
    (hkeys : ((items ((a,x) :: cs ++ all cells n)).map getKey).Nodup) (m : ℕ) :
    ∃ l' h' t' cells', moveItems getKey hash malloc (m + 1) l h t =
        moveItems getKey hash malloc m l' h' t' ∧
      Represents h'.cells l' cs ∧ Buckets getKey hash h'.cells t' n cells' ∧
      (places (cs ++ all cells' n)).Nodup ∧
      Moved h h' t t' ((a,x) :: cs ++ all cells n) (cs ++ all cells' n) := by
  have hne : l.IsEmpty = false := hr.isEmpty_false (by simp)
  obtain ⟨l₁,hfront,hr₁⟩ := RemoveFront_spec hr
  obtain ⟨h₁,hh₁⟩ : ∃ h₁ : Heap T, h₁ = { h with cells := Function.update h.cells a none } :=
    ⟨_,rfl⟩
  have hcells : h₁.cells = Function.update h.cells a none := by rw [hh₁]
  rw [← hh₁] at hfront
  rw [← hcells] at hr₁
  simp only [places,items,List.cons_append,List.map_cons,List.map_append,List.nodup_cons,
    List.mem_append,not_or] at hplaces hkeys
  obtain ⟨ha,hplaces⟩ := hplaces
  have hother : ∀ b, b ≠ a → h₁.cells b = h.cells b := fun b hba => by
    rw [hcells,Function.update_of_ne hba]
  have ha₁ : h₁.cells a = none := by rw [hcells,Function.update_self]
  have halt : a < heapPlaces := hr.bounded a List.mem_cons_self
  have hb₁ : Buckets getKey hash h₁.cells t n cells :=
    hb.congr fun b hm => hother b fun he => ha.2 (he ▸ hm)
  obtain ⟨a₂,h₂,t₂,cells₂,hrun,hnone,hitems,hb₂,hperm,hframe⟩ :=
    hb₁.appendItem_spec malloc hkeys.1.2 ⟨a,halt,ha₁⟩
  have hmoved := (hperm.append_left cs).trans List.perm_middle
  refine ⟨l₁,h₂,t₂,cells₂,?_,?_,hb₂,?_,hitems,hmoved.map Prod.snd,?_,fun b hused hout => ?_⟩
  · simp [moveItems,hne,hfront,hrun,bind,Except.bind]
  · -- the cells still in the old bucket are neither the new one nor in the table
    refine hr₁.congr fun b hm => ?_
    refine hframe b (fun hall => List.disjoint_of_nodup_append hplaces hm hall) ?_
    rintro rfl
    exact hr₁.chain.inUse hm hnone
  · rw [places,(hmoved.map Prod.fst).nodup_iff]
    refine List.nodup_cons.mpr ⟨?_,by simpa using hplaces⟩
    rw [List.map_append,List.mem_append,not_or]
    exact ⟨hr₁.chain.notMem hnone,fun hall => (hb₁.inUse hall).1 hnone⟩
  · -- the old cell's place is given back, and the new one takes a place
    have hback := card_free_of_taken halt ha₁ (hr.chain.inUse List.mem_cons_self) fun c hc => by
      rw [hother c hc]
    have htaken := hb₁.card_free_append hb₂ hnone hperm hframe
    omega
  · simp only [places,List.cons_append,List.map_cons,List.map_append,List.mem_cons,
      List.mem_append,not_or] at hout
    obtain ⟨hba,hcs,hall⟩ := hout
    have hba₂ : b ≠ a₂ := by
      rintro rfl
      exact hused ((hother b hba).symm.trans hnone)
    refine ⟨by rw [hframe b hall hba₂,hother b hba],?_⟩
    rw [places,(hmoved.map Prod.fst).mem_iff]
    simp [hba₂,hcs,hall]

/-- Emptying an old bucket: its items go to the table, and the cells of neither the one nor
the other stay as they are. -/
theorem Buckets.moveItems_spec {l : LinkedList} {m : ℕ} (hb : Buckets getKey hash h.cells t n cells)
    (hr : Represents h.cells l cs) (hplaces : (places (cs ++ all cells n)).Nodup)
    (hkeys : ((items (cs ++ all cells n)).map getKey).Nodup) (hm : cs.length < m) :
    ∃ h' t' cells', moveItems getKey hash malloc m l h t = .ok (h',t') ∧
      Buckets getKey hash h'.cells t' n cells' ∧
      Moved h h' t t' (cs ++ all cells n) (all cells' n) := by
  induction cs generalizing h t l cells m with
  | nil =>
    obtain ⟨m,rfl⟩ : ∃ k, m = k + 1 := ⟨m - 1,by omega⟩
    refine ⟨h,t,cells,?_,hb,.refl h t _⟩
    simp [moveItems,hr.isEmpty_iff.mpr rfl,pure,Except.pure]
  | cons c cs ih =>
    obtain ⟨m,rfl⟩ : ∃ k, m = k + 1 := ⟨m - 1,by omega⟩
    obtain ⟨l₁,h₁,t₁,cells₁,hstep,hr₁,hb₁,hplaces₁,hmoved⟩ :=
      hb.moveItem_spec malloc hr hplaces hkeys m
    obtain ⟨h',t',cells',hrest,hb',hmoved'⟩ := ih hb₁ hr₁ hplaces₁
      ((hmoved.perm.map getKey).nodup_iff.mpr hkeys) (by simpa using hm)
    exact ⟨h',t',cells',hstep.trans hrest,hb',hmoved.trans hmoved'⟩

/-- The old buckets one after the other. -/
theorem Buckets.moveFrom_spec {old : ℕ → LinkedList} {oldCells : ℕ → List (ℕ × T)} {m : ℕ}
    (hb : Buckets getKey hash h.cells t n cells)
    (hold : ∀ j, i ≤ j → j < i + m → Represents h.cells (old j) (oldCells j))
    (hplaces : (places ((List.range' i m).flatMap oldCells ++ all cells n)).Nodup)
    (hkeys : ((items ((List.range' i m).flatMap oldCells ++ all cells n)).map getKey).Nodup) :
    ∃ h' t' cells', moveFrom getKey hash malloc old i m h t = .ok (h',t') ∧
      Buckets getKey hash h'.cells t' n cells' ∧
      Moved h h' t t' ((List.range' i m).flatMap oldCells ++ all cells n) (all cells' n) := by
  induction m generalizing i h t cells with
  | zero => exact ⟨h,t,cells,rfl,hb,.refl h t _⟩
  | succ m ih =>
    obtain ⟨later,hlater⟩ : ∃ later, later = (List.range' (i + 1) m).flatMap oldCells := ⟨_,rfl⟩
    have hsplit : (List.range' i (m + 1)).flatMap oldCells = oldCells i ++ later := by
      rw [List.range'_succ,List.flatMap_cons,hlater]
    rw [hsplit] at hplaces hkeys ⊢
    have hr := hold i le_rfl (by omega)
    have hswap : (oldCells i ++ later ++ all cells n).Perm
        (later ++ (oldCells i ++ all cells n)) := by
      rw [← List.append_assoc]
      exact List.perm_append_comm.append_right _
    have hplaces' := (hswap.map Prod.fst).nodup_iff.mp hplaces
    have hkeys' := ((hswap.map Prod.snd).map getKey).nodup_iff.mp hkeys
    rw [List.map_append] at hplaces'
    rw [List.map_append,List.map_append] at hkeys'
    have hlength : (oldCells i).length < (old i).numInList.toNat + 1 := by
      rw [hr.count]
      simp
    obtain ⟨h₁,t₁,cells₁,hrun,hb₁,hbucket⟩ :=
      hb.moveItems_spec malloc hr hplaces'.of_append_right hkeys'.of_append_right hlength
    -- the old buckets still to come keep their cells, and the table has none of them
    have hkept : ∀ j, i + 1 ≤ j → j < i + 1 + m → ∀ b ∈ places (oldCells j),
        h₁.cells b = h.cells b ∧ b ∉ places (all cells₁ n) := by
      intro j hij hjm b hm
      have hr := hold j (by omega) (by omega)
      refine hbucket.frame b (hr.chain.inUse hm) fun hout => ?_
      refine List.disjoint_of_nodup_append hplaces' ?_ hout
      obtain ⟨c,hc,rfl⟩ := List.mem_map.mp hm
      refine List.mem_map_of_mem ?_
      rw [hlater]
      exact List.mem_flatMap.mpr ⟨j,List.mem_range'_1.mpr ⟨hij,hjm⟩,hc⟩
    have hplaces₁ : (places (later ++ all cells₁ n)).Nodup := by
      rw [places,List.map_append]
      refine List.Nodup.append hplaces'.of_append_left hb₁.places_nodup fun b hm => ?_
      obtain ⟨c,hc,rfl⟩ := List.mem_map.mp hm
      rw [hlater] at hc
      obtain ⟨j,hj,hc⟩ := List.mem_flatMap.mp hc
      obtain ⟨hij,hjm⟩ := List.mem_range'_1.mp hj
      exact (hkept j hij hjm c.1 (List.mem_map_of_mem hc)).2
    have hmoved := hbucket.append hswap
    have hkeys₁ := (hmoved.perm.map getKey).nodup_iff.mpr hkeys
    rw [hlater] at hmoved hplaces₁ hkeys₁
    obtain ⟨h',t',cells',hrest,hb',hmoved'⟩ := ih hb₁
      (fun j hij hjm => (hold j (by omega) (by omega)).congr fun b hm => (hkept j hij hjm b hm).1)
      hplaces₁ hkeys₁
    refine ⟨h',t',cells',?_,hb',?_⟩
    · simp [moveFrom,hrun,hrest,bind,Except.bind]
    · rw [hlater]
      exact hmoved.trans hmoved'

/-- `ReHash` keeps the items. -/
theorem Buckets.ReHash_spec (hb : Buckets getKey hash h.cells t n cells)
    (hcount : t.numItems = (all cells n).length) (hratio : 3 * n ≤ (all cells n).length) :
    ∃ h' t' cells', ReHash getKey hash malloc h t = .ok (h',t') ∧
      t'.numItems = (all cells' (4 * n)).length ∧
      Buckets getKey hash h'.cells t' (4 * n) cells' ∧
      (items (all cells' (4 * n))).Perm (items (all cells n)) ∧
      (free h').card = (free h).card := by
  obtain ⟨t₀,hinit,hitems₀,hb₀⟩ := hb.InitBuckets_eq hratio
  have hold : (List.range' 0 n).flatMap cells ++ all (fun _ => []) (4 * n) = all cells n := by
    simp [all,List.range_eq_range']
  obtain ⟨h',t',cells',hrun,hb',hmoved⟩ := hb₀.moveFrom_spec malloc (i := 0) (m := n)
    (fun j _ hj => hb.list j (by omega)) (hold ▸ hb.places_nodup) (hold ▸ hb.keys_nodup)
  rw [hold] at hmoved
  have hcount' : t'.numItems = (all cells' (4 * n)).length := by
    rw [hmoved.count,hitems₀,hcount,length_of_items hmoved.perm]
  refine ⟨h',t',cells',?_,hcount',hb',hmoved.perm,hmoved.room⟩
  have hsize : t.numBuckets.toNat = n := by rw [hb.size,Int.toNat_natCast]
  simp [ReHash,hb.SanityCheck_eq hcount,hinit,hsize,hrun,hb'.SanityCheck_eq hcount',bind,
    Except.bind,pure,Except.pure]

omit [DecidableEq T] in
theorem Buckets.ratio_iff (hb : Buckets getKey hash h.cells t n cells)
    (hcount : t.numItems = (all cells n).length) :
    t.numItems.tdiv t.numBuckets ≥ ResizeRatio ↔ 3 * n ≤ (all cells n).length := by
  have hdiv : t.numItems.tdiv t.numBuckets = ((all cells n).length / n : ℕ) := by
    rw [hcount,hb.size]
    rfl
  rw [hdiv,← Nat.le_div_iff_mul_le hb.positive]
  unfold ResizeRatio
  exact_mod_cast Iff.rfl

/-- The table grows before it gets too full. -/
theorem Buckets.grown_spec (hb : Buckets getKey hash h.cells t n cells)
    (hcount : t.numItems = (all cells n).length) (hload : (all cells n).length ≤ 3 * n) :
    ∃ h' t' n' cells', grown getKey hash malloc h t = .ok (h',t') ∧
      t'.numItems = (all cells' n').length ∧ (all cells' n').length < 3 * n' ∧
      Buckets getKey hash h'.cells t' n' cells' ∧
      (items (all cells' n')).Perm (items (all cells n)) ∧ (free h').card = (free h).card := by
  have hpos := hb.positive
  have hne : t.numBuckets ≠ 0 := by
    rw [hb.size]
    omega
  by_cases hratio : t.numItems.tdiv t.numBuckets ≥ ResizeRatio
  · obtain ⟨h',t',cells',hrun,hcount',hb',hperm,hroom⟩ :=
      hb.ReHash_spec malloc hcount ((hb.ratio_iff hcount).mp hratio)
    have hlength := length_of_items hperm
    refine ⟨h',t',4 * n,cells',?_,hcount',by omega,hb',hperm,hroom⟩
    simp only [grown,inBounds_of hne,bind,Except.bind,if_pos hratio,hrun]
  · rw [hb.ratio_iff hcount] at hratio
    refine ⟨h,t,n,cells,?_,hcount,by omega,hb,List.Perm.refl _,rfl⟩
    rw [← hb.ratio_iff hcount] at hratio
    simp only [grown,inBounds_of hne,bind,Except.bind,if_neg hratio]
    rfl

variable [DecidableEq Key]

theorem Buckets.Insert_spec (hb : Buckets getKey hash h.cells t n cells)
    (hcount : t.numItems = (all cells n).length) (hload : (all cells n).length ≤ 3 * n)
    (hkey : getKey x ∉ (items (all cells n)).map getKey) (hroom : HasRoom h) :
    ∃ h' t' n' cells', Insert getKey hash malloc h t x = .ok (h',t') ∧
      t'.numItems = (all cells' n').length ∧ (all cells' n').length ≤ 3 * n' ∧
      Buckets getKey hash h'.cells t' n' cells' ∧
      (items (all cells' n')).Perm (x :: items (all cells n)) ∧
      (free h).card = (free h').card + 1 := by
  obtain ⟨h₁,t₁,n₁,cells₁,hgrown,hcount₁,hload₁,hb₁,hperm₁,hfree₁⟩ :=
    hb.grown_spec malloc hcount hload
  have hroom₁ : HasRoom h₁ := by
    rw [hasRoom_iff,hfree₁]
    exact hasRoom_iff.mp hroom
  have hkey₁ : getKey x ∉ (items (all cells₁ n₁)).map getKey := by
    rwa [(hperm₁.map getKey).mem_iff]
  obtain ⟨a,h₂,t₂,cells₂,hrun,hnone,hitems,hb₂,hperm₂,hframe⟩ :=
    hb₁.appendItem_spec malloc hkey₁ hroom₁
  have hlength := hperm₂.length_eq
  have hload₂ : (all cells₂ n₁).length ≤ 3 * n₁ := by
    rw [hlength]
    exact hload₁
  have hwrap : wrap (t₂.numItems + 1) = (all cells₂ n₁).length := by
    refine wrap_count ?_ (hb₂.length_le.trans (Nat.le_succ _))
    rw [hitems,hcount₁,hlength]
    norm_num
  have hperm := (hperm₂.map Prod.snd).trans (hperm₁.cons x)
  have hfound : getKey x ∈ (items (all cells₂ n₁)).map getKey :=
    (hperm.map getKey).mem_iff.mpr List.mem_cons_self
  have hb₃ := hb₂.withNumItems (wrap (t₂.numItems + 1))
  have hafter := hb₃.IsInTable_eq (getKey x)
  have hbefore := hb.IsInTable_eq (getKey x)
  rw [decide_eq_true hfound] at hafter
  rw [decide_eq_false hkey] at hbefore
  refine ⟨h₂,{ t₂ with numItems := wrap (t₂.numItems + 1) },n₁,cells₂,?_,hwrap,hload₂,hb₃,hperm,
    hfree₁.symm.trans (hb₁.card_free_append hb₂ hnone hperm₂ hframe)⟩
  simp [Insert,hbefore,hgrown,hrun,hafter,bind,Except.bind,pure,Except.pure]

omit malloc in
theorem Buckets.Remove_spec (hb : Buckets getKey hash h.cells t n cells)
    (hcount : t.numItems = (all cells n).length) (hx : x ∈ items (all cells n)) :
    ∃ h' t' cells', Remove getKey hash h t (getKey x) = .ok (x,h',t') ∧
      t'.numItems = (all cells' n).length ∧ Buckets getKey hash h'.cells t' n cells' ∧
      (items (all cells n)).Perm (x :: items (all cells' n)) := by
  obtain ⟨i,hvalue⟩ : ∃ i, (hash (getKey x)).toNat % n = i := ⟨_,rfl⟩
  have hi : i < n := hvalue ▸ Nat.mod_lt _ hb.positive
  obtain ⟨found,hfind,hfound⟩ := hb.FindInBucket_eq (getKey x)
  obtain rfl := (hfound x).mpr ⟨hx,rfl⟩
  have hmem := hb.mem_bucket.mp hx
  rw [hvalue] at hfind hmem
  obtain ⟨⟨a,y⟩,hc,hy⟩ := List.mem_map.mp hmem
  obtain rfl : y = x := hy
  obtain ⟨us,vs,hcells⟩ := List.append_of_mem hc
  have hr := hb.list i hi
  rw [hcells] at hr
  have hall : (all cells n).Perm
      ((a,y) :: ((us ++ vs) ++ all (Function.update cells i []) n)) := by
    refine (all_perm cells hi).trans ?_
    rw [hcells]
    exact List.perm_middle.append_right _
  have hplaces := (hall.map Prod.fst).nodup_iff.mp hb.places_nodup
  have hkeys := ((hall.map Prod.snd).map getKey).nodup_iff.mp hb.keys_nodup
  simp only [List.map_cons,List.nodup_cons] at hplaces hkeys
  have hout : y ∉ items (us ++ vs) := by
    intro hm
    refine hkeys.1 (List.mem_map_of_mem ?_)
    rw [List.map_append]
    exact List.mem_append_left _ hm
  rw [items,List.map_append,List.mem_append,not_or] at hout
  obtain ⟨h',l,hrun,hr',-,hframe⟩ := LinkedList.Remove_spec hr hout.1 hout.2
  have hb' : Buckets getKey hash h'.cells (t.setBucket i l) n
      (Function.update cells i (us ++ vs)) := by
    refine hb.set hi hr' (fun z hz => ?_) (fun j hj hji b hm => ?_) hplaces.2 hkeys.2
    · refine hb.hashed i hi z ?_
      rw [hcells]
      simp only [items,List.map_append,List.map_cons,List.mem_append,List.mem_cons] at hz ⊢
      tauto
    · refine hframe b ?_
      rw [← hcells]
      exact hb.apart hi hj hji hm
  have hperm' := all_update_perm cells hi (us ++ vs)
  have hitems := (hall.trans (hperm'.symm.cons _)).map Prod.snd
  have hlength := hitems.length_eq
  simp only [List.length_map,List.length_cons] at hlength
  have hwrap : wrap (t.numItems - 1) = (all (Function.update cells i (us ++ vs)) n).length := by
    refine wrap_count ?_ (hb'.length_le.trans (Nat.le_succ _))
    rw [hcount,hlength]
    norm_num
  have hb₂ := hb'.withNumItems (wrap (t.numItems - 1))
  have hgone : getKey y ∉ (items (all (Function.update cells i (us ++ vs)) n)).map getKey := by
    have hnodup := (hitems.map getKey).nodup_iff.mp hb.keys_nodup
    exact (List.nodup_cons.mp hnodup).1
  have hafter := hb₂.IsInTable_eq (getKey y)
  rw [decide_eq_false hgone] at hafter
  refine ⟨h',{ t.setBucket i l with numItems := wrap (t.numItems - 1) },_,?_,hwrap,hb₂,hitems⟩
  unfold Remove
  rw [hb.HashValue_eq,hvalue]
  simp only [bind,Except.bind,hfind,hb.bucket_eq hi,hrun,hafter,check_of]
  rfl

end Store

/-! Runs of operations, and what they are on a finite map. -/

inductive Operation (Key T : Type)
  | insert (item : T)
  | remove (key : Key)
  deriving DecidableEq, Repr

/-- `map` is what the operations so far make of the empty map. -/
structure State (Key T : Type) where
  heap : Heap T
  table : HashTable
  map : Key → Option T

variable [DecidableEq Key] [DecidableEq T]

def step (getKey : T → Key) (hash : Key → BitVec 32) (malloc : Allocator T heapPlaces)
    (s : State Key T) : Operation Key T → Except Fault (State Key T)
  | .insert x => do
    require ((s.map (getKey x)).isNone)
    let (heap,table) ← Insert getKey hash malloc s.heap s.table x
    return ⟨heap,table,Function.update s.map (getKey x) (some x)⟩
  | .remove key => do
    require ((s.map key).isSome)
    let (_,heap,table) ← Remove getKey hash s.heap s.table key
    return ⟨heap,table,Function.update s.map key none⟩

/-- Other cells may be on the heap before. -/
def machine (getKey : T → Key) (hash : Key → BitVec 32) (malloc : Allocator T heapPlaces) :
    Machine (State Key T) (Operation Key T) where
  initial s := s.table = new ∧ s.map = fun _ => none
  step := step getKey hash malloc

/-- With `load`, a bucket has three items on the average at most. -/
structure State.Inv (getKey : T → Key) (hash : Key → BitVec 32) (s : State Key T) (n : ℕ)
    (cells : ℕ → List (ℕ × T)) : Prop where
  buckets : Buckets getKey hash s.heap.cells s.table n cells
  count : s.table.numItems = (all cells n).length
  load : (all cells n).length ≤ 3 * n
  stored : ∀ key x, s.map key = some x ↔ x ∈ items (all cells n) ∧ getKey x = key

omit [DecidableEq Key] [DecidableEq T] in
theorem length_all (cells : ℕ → List (ℕ × T)) (n : ℕ) :
    (all cells n).length = ∑ i ∈ Finset.range n, (cells i).length := by
  induction n with
  | zero => rfl
  | succ n ih =>
    rw [Finset.sum_range_succ,← ih]
    simp [all,List.range_succ]

namespace State.Inv

variable {s : State Key T} {malloc : Allocator T heapPlaces}

omit [DecidableEq Key] [DecidableEq T] in
theorem absent (hi : s.Inv getKey hash n cells) (hnone : s.map key = none) :
    key ∉ (items (all cells n)).map getKey := by
  intro hm
  obtain ⟨x,hx,hkey⟩ := List.mem_map.mp hm
  cases hnone.symm.trans ((hi.stored key x).mpr ⟨hx,hkey⟩)

omit [DecidableEq T] in
theorem find (hi : s.Inv getKey hash n cells) (key : Key) :
    Find getKey hash s.heap s.table key = .ok (s.map key) := by
  obtain ⟨found,hrun,hfound⟩ := hi.buckets.Find_eq key
  have heq : found = s.map key := Option.ext fun x => (hfound x).trans (hi.stored key x).symm
  rw [hrun,heq]

theorem insert (malloc : Allocator T heapPlaces) (hi : s.Inv getKey hash n cells)
    (hnone : s.map (getKey x) = none) (hroom : HasRoom s.heap) :
    ∃ t n' cells', step getKey hash malloc s (.insert x) = .ok t ∧
      t.map = Function.update s.map (getKey x) (some x) ∧ t.Inv getKey hash n' cells' ∧
      t.table.numItems = s.table.numItems + 1 ∧ (free s.heap).card = (free t.heap).card + 1 := by
  have hkey := hi.absent hnone
  obtain ⟨h',t',n',cells',hrun,hcount,hload,hb,hperm,hfree⟩ :=
    hi.buckets.Insert_spec malloc hi.count hi.load hkey hroom
  refine ⟨⟨h',t',Function.update s.map (getKey x) (some x)⟩,n',cells',?_,rfl,
    ⟨hb,hcount,hload,fun key y => ?_⟩,?_,hfree⟩
  · simp [step,hnone,hrun,bind,Except.bind,pure,Except.pure]
  · rw [hperm.mem_iff,List.mem_cons]
    change Function.update s.map (getKey x) (some x) key = some y ↔ _
    by_cases hk : key = getKey x
    · subst hk
      rw [Function.update_self,Option.some.injEq]
      constructor
      · rintro rfl
        exact ⟨Or.inl rfl,rfl⟩
      · rintro ⟨rfl | hy,hky⟩
        · rfl
        · exact absurd (hky ▸ List.mem_map_of_mem hy) hkey
    · rw [Function.update_of_ne hk,hi.stored]
      constructor
      · rintro ⟨hy,hky⟩
        exact ⟨Or.inr hy,hky⟩
      · rintro ⟨rfl | hy,hky⟩
        · exact absurd hky.symm hk
        · exact ⟨hy,hky⟩
  · have hlength := hperm.length_eq
    rw [List.length_cons,List.length_map,List.length_map] at hlength
    rw [hcount,hi.count,hlength]
    norm_num

theorem remove (hi : s.Inv getKey hash n cells) (hsome : s.map key = some x) :
    ∃ h' t' t cells', Remove getKey hash s.heap s.table key = .ok (x,h',t') ∧
      step getKey hash malloc s (.remove key) = .ok t ∧ t.map = Function.update s.map key none ∧
      t.Inv getKey hash n cells' := by
  obtain ⟨hx,rfl⟩ := (hi.stored key x).mp hsome
  obtain ⟨h',t',cells',hrun,hcount,hb,hperm⟩ := hi.buckets.Remove_spec hi.count hx
  have hload : (all cells' n).length ≤ 3 * n := by
    have hlength := hperm.length_eq
    rw [List.length_cons,List.length_map,List.length_map] at hlength
    have hbefore := hi.load
    omega
  refine ⟨h',t',⟨h',t',Function.update s.map (getKey x) none⟩,cells',hrun,?_,rfl,hb,hcount,hload,
    fun key y => ?_⟩
  · simp [step,hsome,hrun,bind,Except.bind,pure,Except.pure]
  · have hgone := (hperm.map getKey).nodup_iff.mp hi.buckets.keys_nodup
    rw [List.map_cons,List.nodup_cons] at hgone
    change Function.update s.map (getKey x) none key = some y ↔ _
    by_cases hk : key = getKey x
    · subst hk
      rw [Function.update_self]
      refine ⟨nofun,?_⟩
      rintro ⟨hy,hky⟩
      exact absurd (hky ▸ List.mem_map_of_mem hy) hgone.1
    · rw [Function.update_of_ne hk,hi.stored,hperm.mem_iff,List.mem_cons]
      constructor
      · rintro ⟨rfl | hy,hky⟩
        · exact absurd hky.symm hk
        · exact ⟨hy,hky⟩
      · rintro ⟨hy,hky⟩
        exact ⟨Or.inr hy,hky⟩

end State.Inv

theorem Buckets.hasRoom_of_Insert {malloc : Allocator T heapPlaces} {r : Heap T × HashTable}
    (hb : Buckets getKey hash h.cells t n cells) (hcount : t.numItems = (all cells n).length)
    (hload : (all cells n).length ≤ 3 * n)
    (hrun : Insert getKey hash malloc h t x = .ok r) : HasRoom h := by
  obtain ⟨h₁,t₁,n₁,cells₁,hgrown,-,-,hb₁,-,hfree⟩ := hb.grown_spec malloc hcount hload
  obtain ⟨_,-,hrun⟩ := bind_ok.mp hrun
  obtain ⟨-,hrun⟩ := check_bind_ok.mp hrun
  obtain ⟨_,hgrown',hrun⟩ := bind_ok.mp hrun
  cases hgrown.symm.trans hgrown'
  obtain ⟨_,happend,-⟩ := bind_ok.mp hrun
  obtain ⟨_,-,happend⟩ := bind_ok.mp happend
  obtain ⟨_,-,happend⟩ := bind_ok.mp happend
  obtain ⟨_,happend,-⟩ := bind_ok.mp happend
  rw [hasRoom_iff,← hfree]
  exact hasRoom_iff.mp (hasRoom_of_put malloc happend)

section Runs

variable {s : State Key T} {malloc : Allocator T heapPlaces}

omit [DecidableEq Key] [DecidableEq T] in
theorem inv_new (heap : Heap T) :
    State.Inv getKey hash ⟨heap,new,fun _ => none⟩ 4 fun _ => [] where
  buckets := ⟨rfl,by omega,by omega,fun _ _ => represents_new _,by simp,List.nodup_nil,
    List.nodup_nil⟩
  count := rfl
  load := by simp [all]
  stored := by simp [all]

theorem inv_step {t : State Key T} {op : Operation Key T} (hi : s.Inv getKey hash n cells)
    (hstep : step getKey hash malloc s op = .ok t) : ∃ n' cells', t.Inv getKey hash n' cells' := by
  cases op with
  | insert x =>
    obtain ⟨hnone,hrest⟩ := require_bind_ok.mp hstep
    obtain ⟨_,hrun,-⟩ := bind_ok.mp hrest
    obtain ⟨t',n',cells',hstep',-,ht,-⟩ := hi.insert malloc (Option.isNone_iff_eq_none.mp hnone)
      (hi.buckets.hasRoom_of_Insert hi.count hi.load hrun)
    cases hstep.symm.trans hstep'
    exact ⟨n',cells',ht⟩
  | remove key =>
    obtain ⟨hsome,-⟩ := require_bind_ok.mp hstep
    obtain ⟨x,hx⟩ := Option.isSome_iff_exists.mp hsome
    obtain ⟨-,-,t',cells',-,hstep',-,ht⟩ := hi.remove hx
    cases hstep.symm.trans hstep'
    exact ⟨n,cells',ht⟩

theorem reachable_inv (hs : (machine getKey hash malloc).Reachable s) :
    ∃ n cells, s.Inv getKey hash n cells := by
  refine hs.invariant (P := fun s => ∃ n cells, s.Inv getKey hash n cells) ?_ ?_
  · rintro ⟨heap,table,map⟩ ⟨rfl,rfl⟩
    exact ⟨4,_,inv_new heap⟩
  · rintro s op t ⟨n,cells,hi⟩ hstep
    exact inv_step hi hstep

/-- After any operations that were allowed on the map, every item is in the bucket of its
key, the keys are different, `numItems` is the total of the buckets' counts, and lookups,
insertions and removals are those of the map.  Where `Insert` makes the table grow, the items
stay the same. -/
theorem hashTable_is_map (hs : (machine getKey hash malloc).Reachable s) :
    (∃ (n : ℕ) (cells : ℕ → List (ℕ × T)), s.table.numBuckets = n ∧
      (∀ i, i < n → Represents s.heap.cells (s.table.buckets i) (cells i)) ∧
      (∀ i, i < n → ∀ x ∈ items (cells i), HashValue hash s.table (getKey x) = .ok i) ∧
      ((items (all cells n)).map getKey).Nodup ∧
      (∀ x, x ∈ items (all cells n) ↔ s.map (getKey x) = some x) ∧
      s.table.numItems = ∑ i ∈ Finset.range n, (s.table.buckets i).numInList ∧
      (s.table.numItems.tdiv s.table.numBuckets ≥ ResizeRatio →
        ∃ h' t' cells', ReHash getKey hash malloc s.heap s.table = .ok (h',t') ∧
          State.Inv getKey hash ⟨h',t',s.map⟩ (4 * n) cells' ∧
          (items (all cells' (4 * n))).Perm (items (all cells n)))) ∧
    SanityCheck getKey hash s.heap s.table = .ok () ∧
    (∀ key, Find getKey hash s.heap s.table key = .ok (s.map key)) ∧
    (∀ x, s.map (getKey x) = none → HasRoom s.heap → ∃ t,
      step getKey hash malloc s (.insert x) = .ok t ∧
        t.map = Function.update s.map (getKey x) (some x)) ∧
    ∀ key x, s.map key = some x → ∃ h' t' t,
      Remove getKey hash s.heap s.table key = .ok (x,h',t') ∧
        step getKey hash malloc s (.remove key) = .ok t ∧
        t.map = Function.update s.map key none := by
  obtain ⟨n,cells,hi⟩ := reachable_inv hs
  have hb := hi.buckets
  refine ⟨⟨n,cells,hb.size,hb.list,fun i hin x hx => ?_,hb.keys_nodup,fun x => ?_,?_,
    fun hratio => ?_⟩,hb.SanityCheck_eq hi.count,hi.find,fun x hnone hroom => ?_,fun key x hx => ?_⟩
  · rw [hb.HashValue_eq,hb.hashed i hin x hx]
  · rw [hi.stored]
    exact ⟨fun hx => ⟨hx,rfl⟩,fun hx => hx.1⟩
  · rw [hi.count,length_all]
    push_cast
    refine Finset.sum_congr rfl fun i hin => ?_
    rw [(hb.list i (Finset.mem_range.mp hin)).count]
  · obtain ⟨h',t',cells',hrun,hcount,hb',hperm,-⟩ :=
      hb.ReHash_spec malloc hi.count ((hb.ratio_iff hi.count).mp hratio)
    have hload : (all cells' (4 * n)).length ≤ 3 * (4 * n) := by
      have hbefore := hi.load
      rw [length_of_items hperm]
      omega
    refine ⟨h',t',cells',hrun,⟨hb',hcount,hload,fun key x => ?_⟩,hperm⟩
    rw [hperm.mem_iff]
    exact hi.stored key x
  · obtain ⟨t,-,-,hstep,hmap,-⟩ := hi.insert malloc hnone hroom
    exact ⟨t,hstep,hmap⟩
  · obtain ⟨h',t',t,-,hrun,hstep,hmap,-⟩ := hi.remove hx
    exact ⟨h',t',t,hrun,hstep,hmap⟩

/-- As many items with new keys can be inserted as there are places left. -/
theorem State.Inv.insertAll (malloc : Allocator T heapPlaces) (hi : s.Inv getKey hash n cells)
    {xs : List T} (hnone : ∀ x ∈ xs, s.map (getKey x) = none) (hkeys : (xs.map getKey).Nodup)
    (hroom : xs.length ≤ (free s.heap).card) :
    ∃ t n' cells', (machine getKey hash malloc).run s (xs.map .insert) = .ok t ∧
      t.Inv getKey hash n' cells' ∧ t.table.numItems = s.table.numItems + xs.length ∧
      (∀ x ∈ xs, t.map (getKey x) = some x) ∧
      ∀ key, key ∉ xs.map getKey → t.map key = s.map key := by
  induction xs generalizing s n cells with
  | nil => exact ⟨s,n,cells,rfl,hi,by simp,by simp,fun _ _ => rfl⟩
  | cons x xs ih =>
    rw [List.map_cons,List.nodup_cons] at hkeys
    rw [List.length_cons] at hroom
    obtain ⟨s₁,n₁,cells₁,hstep,hmap,hi₁,hcount₁,hfree⟩ :=
      hi.insert malloc (hnone x List.mem_cons_self) (hasRoom_iff.mpr (by omega))
    have hother : ∀ key, key ≠ getKey x → s₁.map key = s.map key := fun key hk => by
      rw [hmap,Function.update_of_ne hk]
    have hnone₁ : ∀ y ∈ xs, s₁.map (getKey y) = none := fun y hy => by
      rw [hother _ fun he => hkeys.1 (he ▸ List.mem_map_of_mem hy)]
      exact hnone y (List.mem_cons_of_mem x hy)
    obtain ⟨t,n',cells',hrun,ht,hcount,hin,hout⟩ := ih hi₁ hnone₁ hkeys.2 (by omega)
    refine ⟨t,n',cells',(Machine.run_cons_ok _).mpr ⟨s₁,hstep,hrun⟩,ht,?_,?_,fun key hk => ?_⟩
    · rw [hcount,hcount₁,List.length_cons]
      push_cast
      ring
    · intro y hy
      rcases List.mem_cons.mp hy with rfl | hy
      · rw [hout _ hkeys.1,hmap,Function.update_self]
      · exact hin y hy
    · rw [List.map_cons,List.mem_cons,not_or] at hk
      rw [hout key hk.2,hother key hk.1]

/-- Each hash value is that of two keys. -/
def halved (k : ℕ) : BitVec 32 := BitVec.ofNat 32 (k / 2)

/-- The numbers below 13 are their own keys.  The last of them makes the table grow. -/
theorem insert_thirteen : ∃ s,
    (machine id halved (firstFree ℕ heapPlaces)).run
      ⟨⟨fun _ => none,0⟩,new,fun _ => none⟩ ((List.range 13).map .insert) = .ok s ∧
    (machine id halved (firstFree ℕ heapPlaces)).Reachable s ∧
    s.table.numItems = 13 ∧ 4 < s.table.numBuckets ∧
    (∀ k < 13, s.map k = some k) ∧ s.map 13 = none := by
  have hi : State.Inv id halved (⟨⟨fun _ => none,0⟩,new,fun _ => none⟩ : State ℕ ℕ) 4 fun _ => [] :=
    inv_new _
  have hroom : (List.range 13).length ≤ (free (⟨fun _ => none,0⟩ : Heap ℕ)).card := by
    rw [free,Finset.filter_true_of_mem fun _ _ => rfl,Finset.card_range,List.length_range]
    norm_num
  obtain ⟨s,n,cells,hrun,ht,hcount,hin,hout⟩ :=
    hi.insertAll (firstFree ℕ heapPlaces) (fun _ _ => rfl) (by decide) hroom
  have hitems : s.table.numItems = 13 := hcount
  have hload := ht.load
  have hlength := ht.count
  have hsize := ht.buckets.size
  exact ⟨s,hrun,.run (.start ⟨rfl,rfl⟩) hrun,hitems,by omega,
    fun k hk => hin k (List.mem_range.mpr hk),hout 13 (by decide)⟩

/-- The keys 0 and 1 are in one bucket, 2 is in another. -/
theorem hashTable_is_map_grown : ∃ s h t,
    (machine id halved (firstFree ℕ heapPlaces)).run
      ⟨⟨fun _ => none,0⟩,new,fun _ => none⟩ ((List.range 13).map .insert) = .ok s ∧
    4 < s.table.numBuckets ∧
    HashValue halved s.table 0 = .ok 0 ∧
    HashValue halved s.table 1 = .ok 0 ∧
    HashValue halved s.table 2 = .ok 1 ∧
    Find id halved s.heap s.table 1 = .ok (some 1) ∧
    Find id halved s.heap s.table 2 = .ok (some 2) ∧
    Find id halved s.heap s.table 13 = .ok none ∧
    Remove id halved s.heap s.table 1 = .ok (1,h,t) := by
  obtain ⟨s,hrun,hs,-,hsize,hin,hout⟩ := insert_thirteen
  obtain ⟨-,-,hfind,-,hremove⟩ := hashTable_is_map hs
  obtain ⟨n,cells,hi⟩ := reachable_inv hs
  have hn : 4 < n := by
    rw [hi.buckets.size] at hsize
    exact_mod_cast hsize
  have hvalue := fun k => hi.buckets.HashValue_eq k
  have h₁ := hin 1 (by norm_num)
  obtain ⟨h,t,-,hremoved,-⟩ := hremove 1 1 h₁
  refine ⟨s,h,t,hrun,hsize,?_,?_,?_,(hfind 1).trans (congrArg _ h₁),
    (hfind 2).trans (congrArg _ (hin 2 (by norm_num))),(hfind 13).trans (congrArg _ hout),hremoved⟩
  · rw [hvalue]
    simp [halved]
  · rw [hvalue]
    simp [halved]
  · rw [hvalue]
    simp [halved,Nat.mod_eq_of_lt (show 1 < n by omega)]

end Runs

end HashTable
end NachOS
