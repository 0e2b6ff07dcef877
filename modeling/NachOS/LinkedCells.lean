import NachOS.StateMachine

/-! Singly linked cells in a store: cells that point at each other, the path that the
pointers make from one place to another, and an allocator that hands out free places. -/
namespace NachOS
namespace LinkedCells

open StateMachine

structure Cell (T : Type) where
  next : Option ℕ
  item : T

/-- The cells in use, by their place.  A null pointer is `none`. -/
abbrev Store (T : Type) := ℕ → Option (Cell T)

variable {T : Type} {h h' : Store T} {p q : Option ℕ} {a b : ℕ} {x y : T}
  {cs ds : List (ℕ × T)}

/-- Reading through a pointer, which must be to a cell in use. -/
def load (h : Store T) (p : Option ℕ) : Except Fault (Cell T) :=
  match p.bind h with
  | none => .error .undefined
  | some c => .ok c

def setNext (h : Store T) (p next : Option ℕ) : Except Fault (Store T) := do
  let c ← load h p
  match p with
  | none => .error .undefined
  | some a => .ok (Function.update h a (some { c with next := next }))

def free (h : Store T) (p : Option ℕ) : Except Fault (Store T) := do
  let _ ← load h p
  match p with
  | none => .error .undefined
  | some a => .ok (Function.update h a none)

theorem load_of {c : Cell T} (hc : h a = some c) : load h (some a) = .ok c := by
  simp [load,hc]

theorem setNext_of {c : Cell T} (hc : h a = some c) (next : Option ℕ) :
    setNext h (some a) next = .ok (Function.update h a (some { c with next := next })) := by
  simp [setNext,load_of hc,bind,Except.bind]

theorem free_of {c : Cell T} (hc : h a = some c) :
    free h (some a) = .ok (Function.update h a none) := by
  simp [free,load_of hc,bind,Except.bind]

/-- From `p` the pointers lead through these cells, in this order, to `q`. -/
def Segment (h : Store T) : Option ℕ → List (ℕ × T) → Option ℕ → Prop
  | p, [], q => p = q
  | p, (a,x) :: cs, q => p = some a ∧ ∃ next, h a = some ⟨next,x⟩ ∧ Segment h next cs q

abbrev places (cs : List (ℕ × T)) : List ℕ := cs.map Prod.fst

abbrev items (cs : List (ℕ × T)) : List T := cs.map Prod.snd

@[simp] theorem segment_nil : Segment h p [] q ↔ p = q := Iff.rfl

@[simp] theorem segment_cons :
    Segment h p ((a,x) :: cs) q ↔ p = some a ∧ ∃ next, h a = some ⟨next,x⟩ ∧ Segment h next cs q :=
  Iff.rfl

theorem segment_append :
    Segment h p (cs ++ ds) q ↔ ∃ m, Segment h p cs m ∧ Segment h m ds q := by
  induction cs generalizing p with
  | nil => simp
  | cons c cs ih =>
    obtain ⟨a,x⟩ := c
    simp only [List.cons_append,segment_cons,ih]
    constructor
    · rintro ⟨hp,next,hc,m,h₁,h₂⟩
      exact ⟨m,⟨hp,next,hc,h₁⟩,h₂⟩
    · rintro ⟨m,⟨hp,next,hc,h₁⟩,h₂⟩
      exact ⟨hp,next,hc,m,h₁,h₂⟩

/-- A path around one of its cells. -/
theorem segment_around :
    Segment h p (cs ++ (a,x) :: ds) q ↔
      Segment h p cs (some a) ∧ ∃ next, h a = some ⟨next,x⟩ ∧ Segment h next ds q := by
  rw [segment_append]
  constructor
  · rintro ⟨m,h₁,rfl,h₂⟩
    exact ⟨h₁,h₂⟩
  · rintro ⟨h₁,h₂⟩
    exact ⟨some a,h₁,rfl,h₂⟩

/-- Only the cells on a path matter for it. -/
theorem Segment.congr (hs : Segment h p cs q) (heq : ∀ b ∈ places cs, h' b = h b) :
    Segment h' p cs q := by
  induction cs generalizing p with
  | nil => exact hs
  | cons c cs ih =>
    obtain ⟨a,x⟩ := c
    obtain ⟨hp,next,hc,hs⟩ := hs
    have ha : h' a = h a := heq a List.mem_cons_self
    exact ⟨hp,next,ha.trans hc,ih hs fun b hb => heq b (List.mem_cons_of_mem a hb)⟩

theorem Segment.update (hs : Segment h p cs q) (ha : a ∉ places cs) (c : Option (Cell T)) :
    Segment (Function.update h a c) p cs q := by
  have heq : ∀ b ∈ places cs, Function.update h a c b = h b := by
    intro b hb
    rw [Function.update_of_ne]
    rintro rfl
    exact ha hb
  exact hs.congr heq

theorem Segment.inUse (hs : Segment h p cs q) (ha : a ∈ places cs) : h a ≠ none := by
  induction cs generalizing p with
  | nil => exact absurd ha List.not_mem_nil
  | cons c cs ih =>
    obtain ⟨b,x⟩ := c
    obtain ⟨-,next,hc,hs⟩ := hs
    rcases List.mem_cons.mp ha with rfl | ha
    · simp [hc]
    · exact ih hs ha

/-- A free place is not on any path. -/
theorem Segment.notMem (hs : Segment h p cs q) (ha : h a = none) : a ∉ places cs :=
  fun hm => hs.inUse hm ha

/-- A path to the null pointer is determined by where it starts. -/
theorem Segment.unique (hc : Segment h p cs none) (hd : Segment h p ds none) : cs = ds := by
  induction cs generalizing p ds with
  | nil =>
    cases ds with
    | nil => rfl
    | cons d ds =>
      obtain rfl : p = none := hc
      cases hd.1
  | cons c cs ih =>
    obtain ⟨a,x⟩ := c
    obtain ⟨rfl,next,ha,hc⟩ := hc
    cases ds with
    | nil => cases hd
    | cons d ds =>
      obtain ⟨b,y⟩ := d
      obtain ⟨hp,next',hb,hd⟩ := hd
      cases hp
      cases ha.symm.trans hb
      rw [ih hc hd]

/-- A path to the null pointer passes no cell twice. -/
theorem Segment.nodup (hs : Segment h p cs none) : (places cs).Nodup := by
  induction cs generalizing p with
  | nil => exact List.nodup_nil
  | cons c cs ih =>
    obtain ⟨a,x⟩ := c
    have hall := hs
    obtain ⟨rfl,next,-,hs⟩ := hs
    refine List.nodup_cons.mpr ⟨fun ha => ?_,ih hs⟩
    -- from a second visit the path would have to be as long as from the first
    obtain ⟨d,hd,rfl⟩ := List.mem_map.mp ha
    obtain ⟨us,vs,rfl⟩ := List.append_of_mem hd
    obtain ⟨_,hrest⟩ := segment_around.mp hs
    have hagain : Segment h (some d.1) (d :: vs) none := ⟨rfl,hrest⟩
    have hlength := congrArg List.length (hagain.unique hall)
    simp at hlength
    omega

/-- A cell of a path to the null pointer is neither before nor behind itself. -/
theorem Segment.notMem_around (hs : Segment h p (cs ++ (a,x) :: ds) none) :
    a ∉ places cs ∧ a ∉ places ds := by
  have hnodup := hs.nodup
  simp only [places,List.map_append,List.map_cons] at hnodup
  have hperm := (List.perm_middle.nodup_iff.mp hnodup)
  have hnot := (List.nodup_cons.mp hperm).1
  rw [List.mem_append,not_or] at hnot
  exact hnot

/-- The place of the last cell. -/
def lastPlace (cs : List (ℕ × T)) : Option ℕ := (places cs).getLast?

@[simp] theorem lastPlace_concat (c : ℕ × T) : lastPlace (cs ++ [c]) = some c.1 := by
  simp [lastPlace]

theorem lastPlace_append (hd : ds ≠ []) : lastPlace (cs ++ ds) = lastPlace ds := by
  unfold lastPlace places
  rw [List.map_append,List.getLast?_append_of_ne_nil]
  simpa using hd

theorem lastPlace_cons (c : ℕ × T) (hd : ds ≠ []) : lastPlace (c :: ds) = lastPlace ds := by
  rw [← List.singleton_append,lastPlace_append hd]

/-- `n` places, of which a request gets a free one as long as there is one.  A request is
numbered, so that the choices may depend on what went before. -/
structure Allocator (T : Type) (n : ℕ) where
  place : ℕ → Store T → ℕ
  fresh : ∀ r h, (∃ a, a < n ∧ h a = none) → place r h < n ∧ h (place r h) = none

/-- The first free place from `a` on, of `n`. -/
def firstFrom (h : Store T) : ℕ → ℕ → ℕ
  | 0, a => a
  | n + 1, a => if (h a).isNone then a else firstFrom h n (a + 1)

theorem firstFrom_free {n b : ℕ} (hab : a ≤ b) (hb : b < a + n) (hnone : h b = none) :
    firstFrom h n a ≤ b ∧ h (firstFrom h n a) = none := by
  induction n generalizing a with
  | zero => omega
  | succ n ih =>
    unfold firstFrom
    cases ha : h a with
    | none => simpa [ha] using hab
    | some c =>
      have hne : a ≠ b := by
        rintro rfl
        cases ha.symm.trans hnone
      simpa [ha] using ih (by omega) (by omega)

/-- The allocator that takes the first free place. -/
def firstFree (T : Type) (n : ℕ) : Allocator T n where
  place _ h := firstFrom h n 0
  fresh := by
    rintro r h ⟨b,hlt,hb⟩
    obtain ⟨hle,hfree⟩ := firstFrom_free (n := n) (Nat.zero_le b) (by omega) hb
    exact ⟨by omega,hfree⟩

end LinkedCells
end NachOS
