import NachOS.Descriptors

/-! Which descriptors of the host the slots of `fdTable` hold: no slot shares its descriptor
with another one, and each change that a call makes to the table keeps it so. -/
namespace NachOS
namespace Stub

open StateMachine Memory

/-- Slot `i` is one that user programs can name, and holds `f`. -/
def Slot (s : FileSystem) (i : ℕ) (f : OpenFile) : Prop :=
  2 ≤ i ∧ i < tableSize ∧ s.fdTable i = some f

/-- Every slot holds an open descriptor of its own. -/
structure Held (s : FileSystem) : Prop where
  isOpen : ∀ i f, Slot s i f → ∃ (n : ℕ) (o : Description), f.file = n ∧
    s.host.fds n = some o ∧ o.access ≠ .writeOnly
  apart : ∀ i j f g, Slot s i f → Slot s j g → f.file = g.file → i = j

/-- How the host is asked to open a file for each access type. -/
def OpensWith (accessType : ℤ) (access : Access) (create : Bool) : Prop :=
  accessType = 0 ∧ access = .readOnly ∧ create = false ∨
  accessType = 1 ∧ access = .readWrite ∧ create = true

/-- What `Open` does: nothing, or what the host does to refuse the file or to open it; the
file takes the first free slot, or is closed again if there is none. -/
inductive OpenResult (s : FileSystem) (name : Path) (accessType : ℤ) : ℤ × FileSystem → Prop
  | unknown (h₀ : accessType ≠ 0) (h₁ : accessType ≠ 1) : OpenResult s name accessType (-1,s)
  | refused {access : Access} {create : Bool} (hw : OpensWith accessType access create)
      (hr : s.host.openFd name access create false = (-1,s.host.next)) :
      OpenResult s name accessType (-1,{ s with host := s.host.next })
  | full {access : Access} {create : Bool} {n i : ℕ} {h : Host}
      (hw : OpensWith accessType access create)
      (hr : s.host.openFd name access create false = ((n : ℤ),h))
      (ho : s.host.Opened name access create false n i h)
      (hfull : s.findSlot 2 (tableSize - 2) = none) :
      OpenResult s name accessType (-1,{ s with host := { h with fds := s.host.fds } })
  | installed {access : Access} {create : Bool} {n i j : ℕ} {h : Host}
      (hw : OpensWith accessType access create)
      (hr : s.host.openFd name access create false = ((n : ℤ),h))
      (ho : s.host.Opened name access create false n i h)
      (hj : s.findSlot 2 (tableSize - 2) = some j) :
      OpenResult s name accessType
        ((j : ℤ),⟨Function.update s.fdTable j (some (.new n)),h⟩)

variable {s : FileSystem}

theorem findSlot_host (s : FileSystem) (h : Host) (i n : ℕ) :
    FileSystem.findSlot { s with host := h } i n = s.findSlot i n := by
  induction n generalizing i with
  | zero => rfl
  | succ n ih =>
    unfold FileSystem.findSlot
    rw [ih]

theorem Open_result (s : FileSystem) (name : Path) (accessType : ℤ) :
    OpenResult s name accessType (s.Open name accessType) := by
  have hinstall : ∀ access create, OpensWith accessType access create →
      OpenResult s name accessType (FileSystem.install
        { s with host := (s.host.openFd name access create false).2 }
        (s.host.openFd name access create false).1) := by
    intro access create hw
    rcases s.host.openFd_opened name access create false with hr | ⟨n,i,h,hr,ho⟩
    · rw [hr]
      exact .refused hw hr
    · have hn : ¬ (n : ℤ) = -1 := by omega
      rw [hr]
      simp only [FileSystem.install,if_neg hn,findSlot_host]
      cases hslot : s.findSlot 2 (tableSize - 2) with
      | some j => exact .installed hw hr ho hslot
      | none =>
        have hclosed : (h.close n).2 = { h with fds := s.host.fds } := by
          have hback : Function.update s.host.fds n none = s.host.fds :=
            Function.update_eq_self_iff.mpr ho.free.symm
          simp [Host.close,Host.description_natCast,ho.fds,hback]
        simp only [hclosed]
        exact .full hw hr ho hslot
  unfold FileSystem.Open
  by_cases h₀ : accessType = 0
  · simp only [if_pos h₀]
    exact hinstall .readOnly false (Or.inl ⟨h₀,rfl,rfl⟩)
  · by_cases h₁ : accessType = 1
    · simp only [if_neg h₀,if_pos h₁]
      exact hinstall .readWrite true (Or.inr ⟨h₁,rfl,rfl⟩)
    · simp only [if_neg h₀,if_neg h₁]
      exact .unknown h₀ h₁

theorem slot_of_get {fd : ℤ} {f : OpenFile} (h : s.get fd = some f) : Slot s fd.toNat f := by
  obtain ⟨h₁,h₂,hf⟩ := get_eq_some h
  exact ⟨by omega,by omega,hf⟩

/-- Closing a slot closes its descriptor on the host; the assertion holds. -/
theorem Close_held (hs : Held s) {fd : ℤ} {f : OpenFile} (hf : s.get fd = some f) :
    ∃ (n : ℕ) (o : Description), f.file = n ∧ s.host.fds n = some o ∧ s.Close fd = .ok (0,
      ⟨Function.update s.fdTable fd.toNat none,
        { s.host with fds := Function.update s.host.fds n none }⟩) := by
  obtain ⟨n,o,hn,ho,_⟩ := hs.isOpen _ f (slot_of_get hf)
  refine ⟨n,o,hn,ho,?_⟩
  have hclose : Stub.Close s.host f.file =
      .ok { s.host with fds := Function.update s.host.fds n none } := by
    rw [hn]
    exact Close_ok_iff.mpr ⟨by rw [Host.description_natCast,ho]; rfl,rfl⟩
  unfold FileSystem.Close
  simp only [hf]
  exact bind_ok.mpr ⟨_,hclose,rfl⟩

theorem Close_not_open {fd : ℤ} (hf : s.get fd = none) : s.Close fd = .ok (-1,s) := by
  unfold FileSystem.Close
  simp only [hf]
  rfl

/-- What `Create` does if the host opens the file: the file stays open, and the slot with
the number of its descriptor is closed if there is one. -/
theorem Create_opened (hs : Held s) {name : Path} {n i : ℕ} {h' : Host}
    (hr : s.host.openFd name .readWrite true true = ((n : ℤ),h'))
    (ho : s.host.Opened name .readWrite true true n i h') : ∃ s', s.Create name = .ok (true,s') ∧
      ((s.get n = none ∧ s' = { s with host := h' }) ∨
        ∃ (f : OpenFile) (m : ℕ) (o : Description), s.get n = some f ∧ f.file = m ∧ m ≠ n ∧
          s.host.fds m = some o ∧ s' = ⟨Function.update s.fdTable n none,
            { h' with fds := Function.update h'.fds m none }⟩) := by
  have hopen : OpenForWrite s.host name = .ok ((n : ℤ),h') := by
    unfold OpenForWrite
    rw [hr]
    exact check_bind_ok.mpr ⟨Int.natCast_nonneg n,rfl⟩
  have hn : ¬ (n : ℤ) = -1 := by omega
  have hcreate : ∀ {r : ℤ} {s' : FileSystem},
      FileSystem.Close { s with host := h' } n = .ok (r,s') → s.Create name = .ok (true,s') := by
    intro r s' hclose
    refine bind_ok.mpr ⟨_,hopen,?_⟩
    simp only [if_neg hn]
    exact bind_ok.mpr ⟨_,hclose,rfl⟩
  have hget : FileSystem.get { s with host := h' } n = s.get n := rfl
  cases hslot : s.get n with
  | none => exact ⟨_,hcreate (Close_not_open (hget.trans hslot)),Or.inl ⟨rfl,rfl⟩⟩
  | some f =>
    obtain ⟨m,o,hm,hom,_⟩ := hs.isOpen _ f (slot_of_get hslot)
    have hne : m ≠ n := by
      rintro rfl
      rw [ho.free] at hom
      cases hom
    have hclosed : Stub.Close h' f.file =
        .ok { h' with fds := Function.update h'.fds m none } := by
      rw [hm]
      refine Close_ok_iff.mpr ⟨?_,rfl⟩
      rw [Host.description_natCast,ho.fds,Function.update_of_ne hne,hom]
      rfl
    refine ⟨_,hcreate (r := 0) ?_,Or.inr ⟨f,m,o,rfl,hm,hne,hom,rfl⟩⟩
    unfold FileSystem.Close
    simp only [hget,hslot]
    exact bind_ok.mpr ⟨_,hclosed,rfl⟩

/-- `Create` returns only if the host opens the file. -/
theorem Create_held (hs : Held s) {name : Path} {r : Bool} {s' : FileSystem}
    (h : s.Create name = .ok (r,s')) : ∃ (n i : ℕ) (h' : Host),
      s.host.Opened name .readWrite true true n i h' ∧ r = true ∧
      ((s.get n = none ∧ s' = { s with host := h' }) ∨
        ∃ (f : OpenFile) (m : ℕ) (o : Description), s.get n = some f ∧ f.file = m ∧ m ≠ n ∧
          s.host.fds m = some o ∧ s' = ⟨Function.update s.fdTable n none,
            { h' with fds := Function.update h'.fds m none }⟩) := by
  rcases s.host.openFd_opened name .readWrite true true with hr | ⟨n,i,h',hr,ho⟩
  · obtain ⟨⟨fd,host⟩,hopen,_⟩ := bind_ok.mp h
    obtain ⟨hfd,hopen⟩ := OpenForWrite_cases hopen
    rw [hr] at hopen
    cases hopen
    omega
  · obtain ⟨s₁,hrun,hcases⟩ := Create_opened hs hr ho
    cases hrun.symm.trans h
    exact ⟨n,i,h',ho,rfl,hcases⟩

/-- The loop of `Remove` finds every slot with the inode number. -/
theorem not_inUse {inode : ℤ} {i n : ℕ} (h : s.inUse inode i n = false) :
    ∀ j f, i ≤ j → j < i + n → s.fdTable j = some f → f.getInode s.host ≠ inode := by
  induction n generalizing i with
  | zero =>
    intro j f hi hj
    omega
  | succ n ih =>
    intro j f hi hj hf
    by_cases hji : j = i
    · subst hji
      simp only [FileSystem.inUse,hf] at h
      split at h
      · cases h
      · next hne => exact fun he => hne he.symm
    · unfold FileSystem.inUse at h
      split at h
      · exact ih h j f (by omega) (by omega) hf
      · split at h
        · cases h
        · exact ih h j f (by omega) (by omega) hf

/-- `Remove` changes nothing, or takes a name away from a file that is in no slot. -/
theorem Remove_result (s : FileSystem) (name : Path) :
    ((s.Remove name).1 ≠ 1 ∧
      ∃ choices, (s.Remove name).2 = { s with host := { s.host with choices := choices } }) ∨
    ((s.Remove name).1 = 1 ∧ ∃ (i : ℕ) (choices : ℕ → Option Choice), s.host.names name = some i ∧
      (∀ j f n o, Slot s j f → f.file = (n : ℕ) → s.host.fds n = some o → o.inode ≠ i) ∧
      (s.Remove name).2 = { s with host := { s.host with
        choices := choices,names := Function.update s.host.names name none } }) := by
  unfold FileSystem.Remove
  rcases s.host.probe name with hr | ⟨n,i,hname,hfree,hr,hback⟩
  · simp only [hr,if_true]
    exact Or.inl ⟨by simp,_,rfl⟩
  · have hn : ¬ (n : ℤ) = -1 := by omega
    simp only [hr,if_neg hn,hback]
    split
    · exact Or.inl ⟨by simp,_,rfl⟩
    · next hnot =>
      have hnot := not_inUse (Bool.not_eq_true _ ▸ hnot)
      have hinode : (OpenFile.new (n : ℤ)).getInode { s.host.next with
          fds := Function.update s.host.fds n (some ⟨i,.readOnly,0⟩) } = wrap i := by
        simp [OpenFile.getInode,OpenFile.new,Host.fstat,Host.description_natCast]
      rw [hinode] at hnot
      have hother : ∀ j f m o, Slot s j f → f.file = (m : ℕ) → s.host.fds m = some o →
          o.inode ≠ i := by
        rintro j f m o ⟨hj₁,hj₂,hf⟩ hm ho rfl
        have hmn : m ≠ n := by
          rintro rfl
          rw [hfree] at ho
          cases ho
        apply hnot j f hj₁ (by simp only [tableSize] at hj₂ ⊢; omega) hf
        simp [OpenFile.getInode,hm,Host.fstat,Host.description_natCast,
          Function.update_of_ne hmn,ho]
      unfold Unlink Host.unlink
      have hnames : s.host.next.names name = some i := hname
      rw [hnames]
      cases hc : s.host.next.choices 0 with
      | none => exact Or.inl ⟨by simp,_,rfl⟩
      | some c =>
        simp only
        split
        · exact Or.inl ⟨by simp,_,rfl⟩
        · exact Or.inr ⟨by simp,i,_,hname,hother,rfl⟩

theorem SysRemove_result (s : FileSystem) (name : Path) :
    ((SysRemove s name).1 = -1 ∧
      ∃ choices, (SysRemove s name).2 = { s with host := { s.host with choices := choices } }) ∨
    ((SysRemove s name).1 = 0 ∧ ∃ (i : ℕ) (choices : ℕ → Option Choice),
      s.host.names name = some i ∧
      (∀ j f n o, Slot s j f → f.file = (n : ℕ) → s.host.fds n = some o → o.inode ≠ i) ∧
      (SysRemove s name).2 = { s with host := { s.host with
        choices := choices,names := Function.update s.host.names name none } }) := by
  unfold SysRemove
  by_cases hname : name = []
  · simp only [if_pos hname]
    exact Or.inl ⟨trivial,s.host.choices,rfl⟩
  · simp only [if_neg hname]
    rcases Remove_result s name with ⟨hr,hs⟩ | ⟨hr,hs⟩
    · rw [if_neg hr]
      exact Or.inl ⟨rfl,hs⟩
    · rw [if_pos hr]
      exact Or.inr ⟨rfl,hs⟩

/-! The four ways in which the calls change slots and descriptors. -/

variable {h : Host} {i j k n : ℕ} {f g : OpenFile} {o : Description}

theorem slot_installed (hf : Slot ⟨Function.update s.fdTable j (some g),h⟩ i f) :
    i = j ∧ f = g ∨ i ≠ j ∧ Slot s i f := by
  obtain ⟨h₁,h₂,hf⟩ := hf
  simp only at hf
  by_cases hij : i = j
  · subst hij
    rw [Function.update_self] at hf
    exact Or.inl ⟨rfl,(Option.some.inj hf).symm⟩
  · rw [Function.update_of_ne hij] at hf
    exact Or.inr ⟨hij,h₁,h₂,hf⟩

theorem slot_closed (hf : Slot ⟨Function.update s.fdTable j none,h⟩ i f) : i ≠ j ∧ Slot s i f := by
  obtain ⟨h₁,h₂,hf⟩ := hf
  simp only at hf
  by_cases hij : i = j
  · subst hij
    rw [Function.update_self] at hf
    cases hf
  · rw [Function.update_of_ne hij] at hf
    exact ⟨hij,h₁,h₂,hf⟩

theorem slot_of_closed (hij : i ≠ j) (hf : Slot s i f) :
    Slot ⟨Function.update s.fdTable j none,h⟩ i f :=
  ⟨hf.1,hf.2.1,(Function.update_of_ne hij _ _).trans hf.2.2⟩

theorem slot_of_installed (hij : i ≠ j) (hf : Slot s i f) :
    Slot ⟨Function.update s.fdTable j (some g),h⟩ i f :=
  ⟨hf.1,hf.2.1,(Function.update_of_ne hij _ _).trans hf.2.2⟩

/-- A descriptor that is new on the host is not in a slot. -/
theorem Held.ne_of_free (hs : Held s) (hfree : s.host.fds n = none) (hf : Slot s i f) :
    f.file ≠ n := by
  intro hn
  obtain ⟨m,o,hm,ho,_⟩ := hs.isOpen i f hf
  have hmn : m = n := by omega
  rw [hmn,hfree] at ho
  cases ho

theorem Held.same (hs : Held s) (hfds : h.fds = s.host.fds) : Held { s with host := h } := by
  constructor
  · intro i f hf
    obtain ⟨n,o,hn,ho,hacc⟩ := hs.isOpen i f hf
    exact ⟨n,o,hn,(congrFun hfds n).trans ho,hacc⟩
  · exact hs.apart

theorem Held.opened (hs : Held s) (hfree : s.host.fds n = none)
    (hfds : h.fds = Function.update s.host.fds n (some o)) : Held { s with host := h } := by
  constructor
  · intro i f hf
    have hne := hs.ne_of_free hfree hf
    obtain ⟨m,o',hm,ho',hacc⟩ := hs.isOpen i f hf
    refine ⟨m,o',hm,?_,hacc⟩
    rw [hfds,Function.update_of_ne (by omega)]
    exact ho'
  · exact hs.apart

theorem Held.installed (hs : Held s) (hfree : s.host.fds n = none) (hacc : o.access ≠ .writeOnly)
    (hfds : h.fds = Function.update s.host.fds n (some o)) :
    Held ⟨Function.update s.fdTable j (some (.new n)),h⟩ := by
  constructor
  · intro i f hf
    rcases slot_installed hf with ⟨rfl,rfl⟩ | ⟨_,hf⟩
    · refine ⟨n,o,rfl,?_,hacc⟩
      rw [hfds,Function.update_self]
    · exact (hs.opened hfree hfds).isOpen i f hf
  · intro i k f g hf hg he
    rcases slot_installed hf with ⟨hij,hfn⟩ | ⟨_,hf⟩
    · rcases slot_installed hg with ⟨hkj,_⟩ | ⟨_,hg⟩
      · exact hij.trans hkj.symm
      · rw [hfn] at he
        exact absurd he.symm (hs.ne_of_free hfree hg)
    · rcases slot_installed hg with ⟨_,hgn⟩ | ⟨_,hg⟩
      · rw [hgn] at he
        exact absurd he (hs.ne_of_free hfree hf)
      · exact hs.apart i k f g hf hg he

theorem Held.closed (hs : Held s) (hk : Slot s k g) (hn : g.file = n)
    (hfds : h.fds = Function.update s.host.fds n none) :
    Held ⟨Function.update s.fdTable k none,h⟩ := by
  constructor
  · intro i f hf
    obtain ⟨hik,hf⟩ := slot_closed hf
    obtain ⟨m,o,hm,ho,hacc⟩ := hs.isOpen i f hf
    have hmn : m ≠ n := by
      rintro rfl
      exact hik (hs.apart i k f g hf hk (hm.trans hn.symm))
    refine ⟨m,o,hm,?_,hacc⟩
    rw [hfds,Function.update_of_ne hmn]
    exact ho
  · intro i j f g hf hg he
    exact hs.apart i j f g (slot_closed hf).2 (slot_closed hg).2 he

theorem opensWith_access {accessType : ℤ} {access : Access} {create : Bool}
    (hw : OpensWith accessType access create) : access ≠ .writeOnly := by
  rcases hw with ⟨_,rfl,_⟩ | ⟨_,rfl,_⟩
  · decide
  · decide

theorem not_slot_new (host : Host) (i : ℕ) (f : OpenFile) : ¬ Slot (.new host) i f := by
  rintro ⟨h₁,_,hf⟩
  have h₀ : i ≠ 0 := by omega
  have h₁ : i ≠ 1 := by omega
  simp [FileSystem.new,h₀,h₁] at hf

theorem held_new (host : Host) : Held (.new host) :=
  ⟨fun i f hf => absurd hf (not_slot_new host i f),
    fun i _ f _ hf => absurd hf (not_slot_new host i f)⟩

end Stub
end NachOS
