import NachOS.HashTable

/-! `ListIterator<T>` (lib/list.h) and `HashIterator<Key,T>` (lib/hash.h, lib/hash.cc): the
iteration over a hash table visits every item once. -/
namespace NachOS

open StateMachine LinkedCells LinkedList

structure ListIterator where
  current : Option ℕ

namespace ListIterator

variable {T : Type}

def new (l : LinkedList) : ListIterator := ⟨l.first⟩

def IsDone (iter : ListIterator) : Bool := iter.current.isNone

def Item (h : Store T) (iter : ListIterator) : Except Fault T := do
  check (iter.IsDone = false)
  let c ← load h iter.current
  return c.item

def Next (h : Store T) (iter : ListIterator) : Except Fault ListIterator := do
  let c ← load h iter.current
  return ⟨c.next⟩

end ListIterator

namespace HashTable

/-- The loop of `FindNextFullBucket` with `n` buckets to go. -/
def findNextFullBucket (t : HashTable) (bucket : ℤ) : ℕ → Except Fault ℤ
  | 0 => return bucket
  | n + 1 => do
    let l ← t.bucket bucket
    if l.IsEmpty = false then return bucket else t.findNextFullBucket (bucket + 1) n

def FindNextFullBucket (t : HashTable) (bucket : ℤ) : Except Fault ℤ :=
  t.findNextFullBucket bucket (t.numBuckets - bucket).toNat

end HashTable

structure HashIterator where
  bucket : ℤ
  bucketIter : Option ListIterator

namespace HashIterator

variable {T : Type}

/-- Go to the next full bucket, as the constructor and `Next` do. -/
def enter (t : HashTable) (bucket : ℤ) : Except Fault HashIterator := do
  let bucket ← t.FindNextFullBucket bucket
  if bucket < t.numBuckets then
    let l ← t.bucket bucket
    return ⟨bucket,some (.new l)⟩
  else
    return ⟨bucket,none⟩

def new (t : HashTable) : Except Fault HashIterator := enter t 0

def IsDone (t : HashTable) (iter : HashIterator) : Bool := iter.bucket == t.numBuckets

def Item (h : Store T) (t : HashTable) (iter : HashIterator) : Except Fault T := do
  check (iter.IsDone t = false)
  match iter.bucketIter with
  | none => .error .undefined
  | some bucketIter => bucketIter.Item h

def Next (h : Store T) (t : HashTable) (iter : HashIterator) : Except Fault HashIterator :=
  match iter.bucketIter with
  | none => .error .undefined
  | some bucketIter => do
    let bucketIter ← bucketIter.Next h
    if bucketIter.IsDone then enter t (iter.bucket + 1)
    else return { iter with bucketIter := some bucketIter }

/-- `for (; !iter->IsDone(); iter->Next())` with the items that it comes to, for less than `n`
steps. -/
def visit (h : Store T) (t : HashTable) : ℕ → HashIterator → Except Fault (List T)
  | 0, _ => .error .blocked
  | n + 1, iter =>
    if iter.IsDone t then return []
    else do
      let item ← iter.Item h t
      let iter ← iter.Next h t
      let rest ← visit h t n iter
      return item :: rest

/-- The loop from a new iterator on. -/
def iterate (h : Store T) (t : HashTable) (n : ℕ) : Except Fault (List T) := do
  let iter ← new t
  visit h t n iter

/-! The cells that are still to come. -/

/-- The cells of buckets `i` to `n - 1`. -/
def cellsFrom (cells : ℕ → List (ℕ × T)) (n i : ℕ) : List (ℕ × T) :=
  (List.range' i (n - i)).flatMap cells

/-- The iterator has come to the first of these cells. -/
inductive Remaining (h : Store T) (n : ℕ) (cells : ℕ → List (ℕ × T)) :
    HashIterator → List (ℕ × T) → Prop
  | done : Remaining h n cells ⟨n,none⟩ []
  | inside {i : ℕ} {p : Option ℕ} {c : ℕ × T} {cs : List (ℕ × T)} (hi : i < n)
    (chain : LinkedCells.Segment h p (c :: cs) none) :
    Remaining h n cells ⟨i,some ⟨p⟩⟩ (c :: cs ++ cellsFrom cells n (i + 1))

variable {Key : Type} {getKey : T → Key} {hash : Key → BitVec 32} {h : Heap T} {t : HashTable}
  {n i : ℕ} {cells : ℕ → List (ℕ × T)} {iter : HashIterator} {cs : List (ℕ × T)}

theorem cellsFrom_end (cells : ℕ → List (ℕ × T)) (n : ℕ) : cellsFrom cells n n = [] := by
  simp [cellsFrom]

theorem cellsFrom_of_lt (cells : ℕ → List (ℕ × T)) (hi : i < n) :
    cellsFrom cells n i = cells i ++ cellsFrom cells n (i + 1) := by
  obtain ⟨k,rfl⟩ : ∃ k, n = i + (k + 1) := ⟨n - i - 1,by omega⟩
  rw [cellsFrom,cellsFrom,show i + (k + 1) - i = k + 1 by omega,
    show i + (k + 1) - (i + 1) = k by omega,List.range'_succ,List.flatMap_cons]

/-- The search stops at the next bucket with cells, or behind the last bucket. -/
theorem findNextFullBucket_spec (hb : HashTable.Buckets getKey hash h.cells t n cells) {m : ℕ}
    (hm : i + m = n) :
    ∃ j, j ≤ n ∧ t.findNextFullBucket i m = .ok j ∧
      cellsFrom cells n i = cellsFrom cells n j ∧ (j < n → cells j ≠ []) := by
  induction m generalizing i with
  | zero => exact ⟨i,by omega,rfl,rfl,fun hi => by omega⟩
  | succ m ih =>
    have hi : i < n := by omega
    by_cases hempty : (t.buckets i).IsEmpty = false
    · refine ⟨i,by omega,bind_ok.mpr ⟨_,hb.bucket_eq hi,if_pos hempty⟩,rfl,fun _ hnil => ?_⟩
      rw [(hb.list i hi).isEmpty_iff.mpr hnil] at hempty
      cases hempty
    · obtain ⟨j,hj,hfind,hcells,hfull⟩ := ih (i := i + 1) (by omega)
      have hnil := (hb.list i hi).isEmpty_iff.mp (Bool.not_eq_false _ ▸ hempty)
      refine ⟨j,hj,bind_ok.mpr ⟨_,hb.bucket_eq hi,(if_neg hempty).trans hfind⟩,?_,hfull⟩
      rw [cellsFrom_of_lt cells hi,hnil,List.nil_append,hcells]

theorem enter_spec (hb : HashTable.Buckets getKey hash h.cells t n cells) (hi : i ≤ n) :
    ∃ iter, enter t i = .ok iter ∧ Remaining h.cells n cells iter (cellsFrom cells n i) := by
  obtain ⟨j,hj,hfind,hcells,hfull⟩ := findNextFullBucket_spec hb (i := i) (m := n - i) (by omega)
  have hrounds : (t.numBuckets - i).toNat = n - i := by
    rw [hb.size]
    omega
  have hnext : t.FindNextFullBucket i = .ok j := by
    rw [HashTable.FindNextFullBucket,hrounds,hfind]
  rw [hcells]
  rcases hj.lt_or_eq with hlt | rfl
  · have hinside : (j : ℤ) < t.numBuckets := by
      rw [hb.size]
      omega
    refine ⟨⟨j,some (.new (t.buckets j))⟩,?_,?_⟩
    · refine bind_ok.mpr ⟨_,hnext,(if_pos hinside).trans ?_⟩
      exact bind_ok.mpr ⟨_,hb.bucket_eq hlt,rfl⟩
    · have hchain := (hb.list j hlt).chain
      rw [cellsFrom_of_lt cells hlt]
      obtain ⟨c,cs,hcs⟩ := List.exists_cons_of_ne_nil (hfull hlt)
      rw [hcs] at hchain ⊢
      exact .inside hlt hchain
  · have hbehind : ¬ (j : ℤ) < t.numBuckets := by
      rw [hb.size]
      omega
    refine ⟨⟨j,none⟩,bind_ok.mpr ⟨_,hnext,if_neg hbehind⟩,?_⟩
    rw [cellsFrom_end]
    exact .done

/-- One pass of the loop: the item of the first cell, and the iterator at the next one. -/
theorem Remaining.step (hb : HashTable.Buckets getKey hash h.cells t n cells) {c : ℕ × T}
    (hr : Remaining h.cells n cells iter (c :: cs)) :
    iter.IsDone t = false ∧ iter.Item h.cells t = .ok c.2 ∧
      ∃ iter', iter.Next h.cells t = .ok iter' ∧ Remaining h.cells n cells iter' cs := by
  obtain ⟨a,x⟩ := c
  generalize hrest : (a,x) :: cs = rest at hr
  cases hr with
  | done => cases hrest
  | @inside i p c' cs' hi hchain =>
    obtain ⟨rfl,rfl⟩ := List.cons.inj hrest
    obtain ⟨rfl,next,hcell,hchain⟩ := hchain
    have hdone : IsDone t ⟨i,some ⟨some a⟩⟩ = false := by
      simp only [IsDone,hb.size]
      rw [beq_eq_false_iff_ne]
      omega
    have hload := load_of hcell
    have hnext : ListIterator.Next h.cells ⟨some a⟩ = .ok ⟨next⟩ := bind_ok.mpr ⟨_,hload,rfl⟩
    refine ⟨hdone,check_bind_ok.mpr ⟨hdone,check_bind_ok.mpr ⟨rfl,bind_ok.mpr ⟨_,hload,rfl⟩⟩⟩,?_⟩
    cases cs' with
    | nil =>
      -- the last cell of its bucket
      obtain rfl : next = none := hchain
      obtain ⟨iter',henter,hr'⟩ := enter_spec hb (i := i + 1) (by omega)
      exact ⟨iter',bind_ok.mpr ⟨_,hnext,henter⟩,hr'⟩
    | cons d ds =>
      obtain ⟨b,y⟩ := d
      obtain rfl : next = some b := hchain.1
      exact ⟨_,bind_ok.mpr ⟨_,hnext,rfl⟩,.inside hi hchain⟩

/-- The loop takes one step for every cell that is to come. -/
theorem Remaining.visit_eq (hb : HashTable.Buckets getKey hash h.cells t n cells)
    (hr : Remaining h.cells n cells iter cs) (m : ℕ) :
    visit h.cells t m iter =
      if cs.length < m then .ok (items cs) else .error .blocked := by
  induction cs generalizing iter m with
  | nil =>
    cases m with
    | zero => rfl
    | succ m =>
      have hdone : iter.IsDone t = true := by
        cases hr
        simp [IsDone,hb.size]
      rw [visit,if_pos hdone]
      simp [pure,Except.pure]
  | cons c cs ih =>
    cases m with
    | zero => rfl
    | succ m =>
      obtain ⟨hdone,hitem,iter',hnext,hr'⟩ := hr.step hb
      rw [visit,if_neg (by rw [hdone]; exact Bool.false_ne_true),bind_of_ok hitem,
        bind_of_ok hnext,ih hr' m]
      by_cases hlt : cs.length < m
      · rw [if_pos hlt,if_pos (by simpa using hlt)]
        rfl
      · rw [if_neg hlt,if_neg (by simpa using hlt)]
        rfl

theorem iterate_eq (hb : HashTable.Buckets getKey hash h.cells t n cells) (m : ℕ) :
    iterate h.cells t m =
      if (HashTable.all cells n).length < m then .ok (items (HashTable.all cells n))
      else .error .blocked := by
  obtain ⟨iter,hnew,hr⟩ := enter_spec hb (i := 0) (by omega)
  have hall : cellsFrom cells n 0 = HashTable.all cells n := by
    rw [cellsFrom,HashTable.all,Nat.sub_zero,List.range_eq_range']
  rw [← hall,← hr.visit_eq hb m]
  exact bind_of_ok hnew _

/-- Over a hash table that inserts and removes have made, the iteration comes to each item of
the table once and to no other, and ends after `numItems` steps. -/
theorem iterate_visits_once [DecidableEq Key] [DecidableEq T] {malloc : Allocator T heapPlaces}
    {s : HashTable.State Key T} (hs : (HashTable.machine getKey hash malloc).Reachable s) :
    ∃ visited : List T,
      (∀ m : ℕ, iterate s.heap.cells s.table m =
        if s.table.numItems < m then .ok visited else .error .blocked) ∧
      (visited.length : ℤ) = s.table.numItems ∧ visited.Nodup ∧
      ∀ x, x ∈ visited ↔ s.map (getKey x) = some x := by
  obtain ⟨n,cells,hi⟩ := HashTable.reachable_inv hs
  refine ⟨items (HashTable.all cells n),fun m => ?_,?_,hi.buckets.keys_nodup.of_map,
    fun x => ?_⟩
  · rw [iterate_eq hi.buckets,hi.count]
    simp
  · rw [hi.count,List.length_map]
  · rw [hi.stored]
    exact ⟨fun hx => ⟨hx,rfl⟩,fun hx => hx.1⟩

/-- The thirteen items of a table that has grown, two to a bucket, with empty buckets behind
them. -/
theorem iterate_visits_grown : ∃ s visited,
    (HashTable.machine id HashTable.halved (firstFree ℕ heapPlaces)).run
      ⟨⟨fun _ => none,0⟩,.new,fun _ => none⟩ ((List.range 13).map .insert) = .ok s ∧
    4 < s.table.numBuckets ∧ iterate s.heap.cells s.table 14 = .ok visited ∧
    visited.length = 13 ∧ visited.Nodup ∧ (∀ k < 13, k ∈ visited) ∧ 13 ∉ visited := by
  obtain ⟨s,hrun,hs,hitems,hsize,hin,hout⟩ := HashTable.insert_thirteen
  obtain ⟨visited,hvisit,hlength,hnodup,hmem⟩ := iterate_visits_once hs
  rw [hitems] at hvisit hlength
  exact ⟨s,visited,hrun,hsize,hvisit 14,by exact_mod_cast hlength,hnodup,
    fun k hk => (hmem k).mpr (hin k hk),fun hm => nomatch hout.symm.trans ((hmem 13).mp hm)⟩

end HashIterator
end NachOS
