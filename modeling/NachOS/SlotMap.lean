import Mathlib

/-! Bounded finite maps, and tables of slots that hold one.  A slot is free or holds a value
and its key; in which slot a pair stands does not matter. -/
namespace NachOS
namespace SlotMap

variable {Key Value : Type} [DecidableEq Key]

/-- Add a pair to a map that has room for `capacity` pairs. -/
def add (capacity : ℕ) (m : Finmap fun _ : Key => Value) (k : Key) (v : Value) :
    Bool × Finmap fun _ : Key => Value :=
  if k ∈ m ∨ m.keys.card = capacity then (false,m) else (true,m.insert k v)

def remove (m : Finmap fun _ : Key => Value) (k : Key) : Bool × Finmap fun _ : Key => Value :=
  if k ∈ m then (true,m.erase k) else (false,m)

/-- The first `n` slots hold the pairs of `m`, each one once. -/
structure Represents (slots : ℕ → Option (Value × Key)) (n : ℕ)
    (m : Finmap fun _ : Key => Value) : Prop where
  lookup : ∀ k v, m.lookup k = some v ↔ ∃ i < n, slots i = some (v,k)
  distinct : ∀ {i j k v w}, i < n → j < n → slots i = some (v,k) → slots j = some (w,k) → i = j

variable {slots slots' : ℕ → Option (Value × Key)} {n i : ℕ} {m : Finmap fun _ : Key => Value}
  {k : Key} {v : Value}

theorem represents_empty (h : ∀ i < n, slots i = none) : Represents slots n ∅ := by
  constructor
  · intro k v
    rw [Finmap.lookup_empty]
    refine ⟨nofun,?_⟩
    rintro ⟨i,hi,he⟩
    rw [h i hi] at he
    cases he
  · intro i j k v w hi _ he _
    rw [h i hi] at he
    cases he

namespace Represents

theorem congr (h : Represents slots n m) (he : ∀ i < n, slots' i = slots i) :
    Represents slots' n m := by
  constructor
  · intro k v
    rw [h.lookup]
    refine exists_congr fun i => and_congr_right fun hi => ?_
    rw [he i hi]
  · intro i j k v w hi hj hsi hsj
    rw [he i hi] at hsi
    rw [he j hj] at hsj
    exact h.distinct hi hj hsi hsj

theorem mem_iff (h : Represents slots n m) : k ∈ m ↔ ∃ i < n, ∃ v, slots i = some (v,k) := by
  rw [Finmap.mem_iff]
  constructor
  · rintro ⟨v,hv⟩
    obtain ⟨i,hi,he⟩ := (h.lookup k v).mp hv
    exact ⟨i,hi,v,he⟩
  · rintro ⟨i,hi,v,he⟩
    exact ⟨v,(h.lookup k v).mpr ⟨i,hi,he⟩⟩

omit [DecidableEq Key] in
/-- The slots after a pair was put in a free one. -/
theorem slot_filled_iff (hfree : slots i = none)
    (hslots : ∀ j, slots' j = if j = i then some (v,k) else slots j) (j : ℕ) (w : Value)
    (k' : Key) : slots' j = some (w,k') ↔ j = i ∧ w = v ∧ k' = k ∨ slots j = some (w,k') := by
  rw [hslots]
  by_cases hji : j = i
  · rw [if_pos hji,hji,hfree]
    simp [eq_comm]
  · simp [hji]

/-- A new pair is put in a free slot. -/
theorem insert (h : Represents slots n m) (hk : k ∉ m) (hi : i < n) (hfree : slots i = none)
    (hslots : ∀ j, slots' j = if j = i then some (v,k) else slots j) :
    Represents slots' n (m.insert k v) := by
  have hiff := slot_filled_iff hfree hslots
  have hnew : ∀ {j w}, j < n → slots j ≠ some (w,k) :=
    fun {j w} hj hs => hk (h.mem_iff.mpr ⟨j,hj,w,hs⟩)
  constructor
  · intro k' w
    by_cases hkk : k' = k
    · subst hkk
      rw [Finmap.lookup_insert]
      constructor
      · intro hw
        cases hw
        exact ⟨i,hi,(hiff _ _ _).mpr (Or.inl ⟨rfl,rfl,rfl⟩)⟩
      · rintro ⟨j,hj,hs⟩
        rcases (hiff _ _ _).mp hs with ⟨_,rfl,_⟩ | hs
        · rfl
        · exact absurd hs (hnew hj)
    · rw [Finmap.lookup_insert_of_ne _ hkk,h.lookup]
      refine exists_congr fun j => and_congr_right fun _ => ?_
      rw [hiff]
      simp [hkk]
  · intro j l k' w w' hj hl hsj hsl
    rcases (hiff _ _ _).mp hsj with ⟨rfl,_,rfl⟩ | hsj
    · rcases (hiff _ _ _).mp hsl with ⟨rfl,_,_⟩ | hsl
      · rfl
      · exact absurd hsl (hnew hl)
    · rcases (hiff _ _ _).mp hsl with ⟨rfl,_,rfl⟩ | hsl
      · exact absurd hsj (hnew hj)
      · exact h.distinct hj hl hsj hsl

/-- The slots after the slot of a pair was freed: the other pairs have other keys. -/
theorem slot_freed_iff (h : Represents slots n m) (hi : i < n) (hs : slots i = some (v,k))
    (hslots : ∀ j, slots' j = if j = i then none else slots j) {j : ℕ} (hj : j < n) (w : Value)
    (k' : Key) : slots' j = some (w,k') ↔ k' ≠ k ∧ slots j = some (w,k') := by
  rw [hslots]
  by_cases hji : j = i
  · rw [if_pos hji]
    refine ⟨nofun,?_⟩
    rintro ⟨hne,hs'⟩
    rw [hji,hs] at hs'
    cases hs'
    exact absurd rfl hne
  · rw [if_neg hji]
    refine ⟨fun hs' => ⟨?_,hs'⟩,fun hs' => hs'.2⟩
    rintro rfl
    exact hji (h.distinct hj hi hs' hs)

/-- The slot of a pair is freed. -/
theorem erase (h : Represents slots n m) (hi : i < n) (hs : slots i = some (v,k))
    (hslots : ∀ j, slots' j = if j = i then none else slots j) :
    Represents slots' n (m.erase k) := by
  have hiff := fun {j} => h.slot_freed_iff hi hs hslots (j := j)
  constructor
  · intro k' w
    by_cases hkk : k' = k
    · subst hkk
      rw [Finmap.lookup_erase]
      refine ⟨nofun,?_⟩
      rintro ⟨j,hj,hs'⟩
      exact absurd rfl ((hiff hj _ _).mp hs').1
    · rw [Finmap.lookup_erase_ne hkk,h.lookup]
      refine exists_congr fun j => and_congr_right fun hj => ?_
      rw [hiff hj]
      exact ⟨fun hs' => ⟨hkk,hs'⟩,fun hs' => hs'.2⟩
  · intro j l k' w w' hj hl hsj hsl
    exact h.distinct hj hl ((hiff hj _ _).mp hsj).2 ((hiff hl _ _).mp hsl).2

/-- There are as many pairs as slots in use, so the map is full just if every slot is. -/
theorem full_iff (h : Represents slots n m) :
    m.keys.card = n ↔ ∀ i < n, slots i ≠ none := by
  classical
  let used := (Finset.range n).filter fun i => slots i ≠ none
  have hused : ∀ i, i ∈ used ↔ i < n ∧ ∃ v k, slots i = some (v,k) := by
    intro i
    rw [Finset.mem_filter,Finset.mem_range,Option.ne_none_iff_exists']
    simp only [Prod.exists]
  -- a slot in use corresponds to its key
  have himage : used.image (fun i => (slots i).map Prod.snd) = m.keys.image some := by
    ext o
    rw [Finset.mem_image,Finset.mem_image]
    constructor
    · rintro ⟨i,hi,rfl⟩
      obtain ⟨hlt,v,k,hs⟩ := (hused i).mp hi
      refine ⟨k,Finmap.mem_keys.mpr (h.mem_iff.mpr ⟨i,hlt,v,hs⟩),?_⟩
      rw [hs]
      rfl
    · rintro ⟨k,hk,rfl⟩
      obtain ⟨i,hlt,v,hs⟩ := h.mem_iff.mp (Finmap.mem_keys.mp hk)
      refine ⟨i,(hused i).mpr ⟨hlt,v,k,hs⟩,?_⟩
      rw [hs]
      rfl
  have hinj : Set.InjOn (fun i => (slots i).map Prod.snd) used := by
    intro i hi j hj he
    obtain ⟨hi,v,k,hsi⟩ := (hused i).mp hi
    obtain ⟨hj,w,l,hsj⟩ := (hused j).mp hj
    simp only [hsi,hsj,Option.map_some,Option.some.injEq] at he
    subst he
    exact h.distinct hi hj hsi hsj
  have hcard : m.keys.card = used.card := by
    rw [← Finset.card_image_of_injective m.keys (Option.some_injective Key),← himage,
      Finset.card_image_of_injOn hinj]
  have hall : used.card = n ↔ ∀ i < n, slots i ≠ none := by
    have hrange := Finset.card_filter_eq_iff (s := Finset.range n) (p := fun i => slots i ≠ none)
    rw [Finset.card_range] at hrange
    rw [hrange]
    simp only [Finset.mem_range]
  rw [hcard,hall]

end Represents
end SlotMap
end NachOS
