import NachOS.StubFileSystem

/-! Runs of the descriptor calls of the stub file system: which entries of `fdTable` each
call changes, on any host. -/
namespace NachOS
namespace Stub

open StateMachine

/-- The file system and the result of the last call. -/
structure State where
  fs : FileSystem
  r2 : ℤ

inductive Action
  | openFile (name : Path) (accessType : ℤ)
  | close (fd : ℤ)
  | create (name : Path)
  | remove (name : Path)

def step (s : State) : Action → Except Fault State
  | .openFile name accessType => do
    let (result,fs) := SysOpen s.fs name accessType
    return ⟨fs,result⟩
  | .close fd => do
    let (result,fs) ← SysClose s.fs fd
    return ⟨fs,result⟩
  | .create name => do
    let (result,fs) ← SysCreate s.fs name
    return ⟨fs,result⟩
  | .remove name => do
    let (result,fs) := SysRemove s.fs name
    return ⟨fs,result⟩

def Started (s : State) : Prop := ∃ host, s = ⟨.new host,0⟩

def machine : Machine State Action := ⟨Started,step⟩

/-- The call changes at most the slot it names. -/
def Isolated (s : State) (a : Action) (t : State) : Prop :=
  match a with
  | .openFile _ _ => (t.r2 = -1 ∧ t.fs.fdTable = s.fs.fdTable) ∨
    ∃ i : ℕ, t.r2 = i ∧ 2 ≤ i ∧ i < tableSize ∧ s.fs.fdTable i = none ∧
      (∀ j, 2 ≤ j → j < i → s.fs.fdTable j ≠ none) ∧ t.fs.fdTable i ≠ none ∧
      ∀ j, j ≠ i → t.fs.fdTable j = s.fs.fdTable j
  | .close fd => ∀ j : ℕ, (j : ℤ) ≠ fd → t.fs.fdTable j = s.fs.fdTable j
  | .create _ => t.fs.fdTable = s.fs.fdTable
  | .remove _ => t.fs.fdTable = s.fs.fdTable

/-- A `Create` to whose file the host gives the number of a slot that is in use. -/
def Collides (s : State) : Action → Prop
  | .create name => name ≠ [] ∧ ∃ n : ℕ,
    (s.fs.host.openFd name .readWrite true true).1 = n ∧ (s.fs.get n).isSome = true
  | _ => False

/-! One lemma for each call. -/

variable {s : FileSystem} {i n : ℕ}

theorem findSlot_some {j : ℕ} (h : s.findSlot i n = some j) :
    i ≤ j ∧ j < i + n ∧ s.fdTable j = none ∧ ∀ l, i ≤ l → l < j → s.fdTable l ≠ none := by
  induction n generalizing i with
  | zero => cases h
  | succ n ih =>
    by_cases hfree : (s.fdTable i).isNone = true
    · have he : i = j := by simpa [FileSystem.findSlot,hfree] using h
      subst he
      exact ⟨le_rfl,by omega,by simpa using hfree,fun l _ _ => by omega⟩
    · have hrest : s.findSlot (i + 1) n = some j := by
        simpa [FileSystem.findSlot,hfree] using h
      obtain ⟨h₁,h₂,hnone,hbelow⟩ := ih hrest
      refine ⟨by omega,by omega,hnone,fun l hl hlj => ?_⟩
      by_cases hli : l = i
      · rw [hli]
        simpa using hfree
      · exact hbelow l (by omega) hlj

/-- `Open` takes the lowest free slot for a host descriptor, or changes nothing. -/
theorem install_cases (s : FileSystem) (fd : ℤ) :
    ((s.install fd).1 = -1 ∧ (s.install fd).2.fdTable = s.fdTable) ∨
    ∃ i : ℕ, (s.install fd).1 = i ∧ 2 ≤ i ∧ i < tableSize ∧ s.fdTable i = none ∧
      (∀ j, 2 ≤ j → j < i → s.fdTable j ≠ none) ∧
      (s.install fd).2.fdTable = Function.update s.fdTable i (some (.new fd)) := by
  unfold FileSystem.install
  by_cases hfd : fd = -1
  · simp [hfd]
  · simp only [if_neg hfd]
    cases hslot : s.findSlot 2 (tableSize - 2) with
    | none => exact Or.inl ⟨rfl,rfl⟩
    | some i =>
      obtain ⟨h₁,h₂,hnone,hbelow⟩ := findSlot_some hslot
      exact Or.inr ⟨i,rfl,h₁,by simp only [tableSize] at *; omega,hnone,hbelow,rfl⟩

theorem Open_cases (s : FileSystem) (name : Path) (accessType : ℤ) :
    ((s.Open name accessType).1 = -1 ∧ (s.Open name accessType).2.fdTable = s.fdTable) ∨
    ∃ (i : ℕ) (f : OpenFile), (s.Open name accessType).1 = i ∧ 2 ≤ i ∧ i < tableSize ∧
      s.fdTable i = none ∧ (∀ j, 2 ≤ j → j < i → s.fdTable j ≠ none) ∧
      (s.Open name accessType).2.fdTable = Function.update s.fdTable i (some f) := by
  have hinstall : ∀ host fd, (((⟨s.fdTable,host⟩ : FileSystem).install fd).1 = -1 ∧
      ((⟨s.fdTable,host⟩ : FileSystem).install fd).2.fdTable = s.fdTable) ∨
      ∃ (i : ℕ) (f : OpenFile), ((⟨s.fdTable,host⟩ : FileSystem).install fd).1 = i ∧ 2 ≤ i ∧
        i < tableSize ∧ s.fdTable i = none ∧ (∀ j, 2 ≤ j → j < i → s.fdTable j ≠ none) ∧
        ((⟨s.fdTable,host⟩ : FileSystem).install fd).2.fdTable =
          Function.update s.fdTable i (some f) := by
    intro host fd
    rcases install_cases ⟨s.fdTable,host⟩ fd with h | ⟨i,h⟩
    · exact Or.inl h
    · exact Or.inr ⟨i,_,h⟩
  unfold FileSystem.Open
  by_cases h₀ : accessType = 0
  · simp only [if_pos h₀]
    exact hinstall _ _
  · by_cases h₁ : accessType = 1
    · simp only [if_neg h₀,if_pos h₁]
      exact hinstall _ _
    · simp only [if_neg h₀,if_neg h₁]
      exact Or.inl ⟨trivial,trivial⟩

/-- The host closes a descriptor that is open. -/
theorem Close_ok_iff {h h' : Host} {fd : ℤ} : Stub.Close h fd = .ok h' ↔
    (h.description fd).isSome = true ∧
      h' = { h with fds := Function.update h.fds fd.toNat none } := by
  unfold Stub.Close Host.close
  cases h.description fd with
  | none => simp [check,bind,Except.bind]
  | some o => simp [bind,Except.bind,pure,Except.pure,eq_comm]

theorem Close_cases {s' : FileSystem} {fd r : ℤ} (h : s.Close fd = .ok (r,s')) :
    (s.get fd = none ∧ r = -1 ∧ s' = s) ∨
    ∃ f host, s.get fd = some f ∧ r = 0 ∧ s' = ⟨Function.update s.fdTable fd.toNat none,host⟩ := by
  unfold FileSystem.Close at h
  cases hf : s.get fd with
  | none =>
    rw [hf] at h
    cases h
    exact Or.inl ⟨rfl,rfl,rfl⟩
  | some f =>
    rw [hf] at h
    obtain ⟨host,_,h⟩ := bind_ok.mp h
    cases h
    exact Or.inr ⟨f,host,rfl,rfl,rfl⟩

theorem get_eq_some {fd : ℤ} {f : OpenFile} (h : s.get fd = some f) :
    2 ≤ fd ∧ fd < tableSize ∧ s.fdTable fd.toNat = some f := by
  unfold FileSystem.get at h
  by_cases hr : fd < 2 ∨ fd ≥ tableSize
  · rw [if_pos hr] at h
    cases h
  · rw [if_neg hr] at h
    exact ⟨by omega,by omega,h⟩

theorem Remove_fdTable (s : FileSystem) (name : Path) : (s.Remove name).2.fdTable = s.fdTable := by
  unfold FileSystem.Remove
  by_cases hfd : (s.host.openFd name .readOnly false false).1 = -1
  · simp [hfd]
  · simp only [if_neg hfd]
    split <;> rfl

theorem OpenForWrite_cases {h h' : Host} {name : Path} {fd : ℤ}
    (hopen : OpenForWrite h name = .ok (fd,h')) :
    fd ≥ 0 ∧ h.openFd name .readWrite true true = (fd,h') := by
  unfold OpenForWrite at hopen
  generalize h.openFd name .readWrite true true = r at hopen ⊢
  obtain ⟨hfd,hopen⟩ := check_bind_ok.mp hopen
  cases hopen
  exact ⟨hfd,rfl⟩

/-- `Create` opens the file and then closes the slot numbered like the host descriptor. -/
theorem Create_cases {s' : FileSystem} {name : Path} {r : Bool} (h : s.Create name = .ok (r,s')) :
    ∃ n : ℕ, (s.host.openFd name .readWrite true true).1 = n ∧
      ((s.get n = none ∧ s'.fdTable = s.fdTable) ∨
        ∃ f, s.get n = some f ∧ s'.fdTable = Function.update s.fdTable n none) := by
  obtain ⟨⟨fd,host⟩,hopen,h⟩ := bind_ok.mp h
  obtain ⟨hfd,hopen⟩ := OpenForWrite_cases hopen
  obtain ⟨n,rfl⟩ := Int.eq_ofNat_of_zero_le hfd
  have hne : ¬ (n : ℤ) = -1 := by omega
  simp only [if_neg hne] at h
  obtain ⟨⟨r',s₁⟩,hclose,h⟩ := bind_ok.mp h
  cases h
  refine ⟨n,by rw [hopen],?_⟩
  rcases Close_cases hclose with ⟨hnone,_,rfl⟩ | ⟨f,host',hf,_,rfl⟩
  · exact Or.inl ⟨hnone,rfl⟩
  · exact Or.inr ⟨f,hf,rfl⟩

theorem SysCreate_cases {name : Path} {r : ℤ} {s' : FileSystem}
    (h : SysCreate s name = .ok (r,s')) :
    (name = [] ∧ r = -1 ∧ s' = s) ∨
      ∃ success, s.Create name = .ok (success,s') ∧ r = if success then 0 else -1 := by
  unfold SysCreate at h
  by_cases hname : name = []
  · rw [if_pos hname] at h
    cases h
    exact Or.inl ⟨hname,rfl,rfl⟩
  · rw [if_neg hname] at h
    obtain ⟨⟨success,s₁⟩,hrun,h⟩ := bind_ok.mp h
    cases h
    exact Or.inr ⟨success,hrun,rfl⟩

/-! The calls as steps. -/

variable {s t : State}

theorem openFile_isolated {name : Path} {accessType : ℤ}
    (h : step s (.openFile name accessType) = .ok t) : Isolated s (.openFile name accessType) t := by
  have ht : t = ⟨(s.fs.Open name accessType).2,(s.fs.Open name accessType).1⟩ :=
    (Except.ok.inj h).symm
  rw [ht]
  rcases Open_cases s.fs name accessType with h | ⟨i,f,hr,h₁,h₂,hnone,hbelow,htable⟩
  · exact Or.inl h
  · refine Or.inr ⟨i,hr,h₁,h₂,hnone,hbelow,?_,fun j hj => ?_⟩
    · simp only [htable,Function.update_self]
      exact Option.some_ne_none f
    · simp only [htable,Function.update_of_ne hj]

theorem close_isolated {fd : ℤ} (h : step s (.close fd) = .ok t) : Isolated s (.close fd) t := by
  obtain ⟨⟨r,fs⟩,hclose,h⟩ := bind_ok.mp h
  cases h
  intro j hj
  rcases Close_cases hclose with ⟨_,_,rfl⟩ | ⟨f,host,hf,_,rfl⟩
  · rfl
  · have hrange := get_eq_some hf
    exact Function.update_of_ne (by omega) _ _

theorem remove_isolated {name : Path} (h : step s (.remove name) = .ok t) :
    Isolated s (.remove name) t := by
  have ht : t = ⟨(SysRemove s.fs name).2,(SysRemove s.fs name).1⟩ := (Except.ok.inj h).symm
  rw [ht]
  show (SysRemove s.fs name).2.fdTable = s.fs.fdTable
  unfold SysRemove
  by_cases hname : name = []
  · simp [hname]
  · simp only [if_neg hname]
    exact Remove_fdTable s.fs name

theorem create_isolated_iff {name : Path} (h : step s (.create name) = .ok t) :
    Isolated s (.create name) t ↔ ¬ Collides s (.create name) := by
  obtain ⟨⟨r,fs⟩,hcreate,h⟩ := bind_ok.mp h
  cases h
  show fs.fdTable = s.fs.fdTable ↔ _
  by_cases hname : name = []
  · rw [SysCreate,if_pos hname] at hcreate
    cases hcreate
    simp [Collides,hname]
  · obtain ⟨success,hrun,_⟩ := (SysCreate_cases hcreate).resolve_left fun h => hname h.1
    obtain ⟨n,hn,hcases⟩ := Create_cases hrun
    have hcollides : Collides s (.create name) ↔ (s.fs.get n).isSome = true := by
      constructor
      · rintro ⟨_,n',hn',hsome⟩
        have he : n' = n := by omega
        exact he ▸ hsome
      · intro hsome
        exact ⟨hname,n,hn,hsome⟩
    rw [hcollides]
    rcases hcases with ⟨hnone,htable⟩ | ⟨f,hf,htable⟩
    · simp [hnone,htable]
    · have hslot := (get_eq_some hf).2.2
      simp only [hf,htable,Option.isSome_some,not_true_eq_false,iff_false]
      intro hsame
      have hchanged := congrFun hsame n
      rw [Int.toNat_natCast] at hslot
      rw [Function.update_self,hslot] at hchanged
      cases hchanged

/-- Each call changes at most the slot it names, except a `Create` to whose file the host
gives the number of a slot that is in use. -/
theorem descriptors_isolated_iff (s t : State) (a : Action) (h : machine.step s a = .ok t) :
    Isolated s a t ↔ ¬ Collides s a := by
  cases a with
  | openFile name accessType => exact iff_of_true (openFile_isolated h) not_false
  | close fd => exact iff_of_true (close_isolated h) not_false
  | create name => exact create_isolated_iff h
  | remove name => exact iff_of_true (remove_isolated h) not_false

/-- A host with descriptors 0, 1 and 2 open that gives out the numbers 3, 4, 3. -/
def exampleHost : Host where
  names := fun _ => none
  contents := fun _ => []
  directory := fun _ => false
  used := fun _ => false
  fds := fun n => if n < 3 then some ⟨n,.readWrite,0⟩ else none
  choices := fun n => [some ⟨3,10⟩,some ⟨4,11⟩,some ⟨3,12⟩].getD n none

/-- Two files are opened in slots 2 and 3, which the host calls 3 and 4, and the first one is
closed.  Another file that is opened then gets slot 2 again; a file that is created there gets
the number 3 on the host. -/
theorem descriptors_isolated_iff_reused : ∃ s t u,
    machine.run ⟨.new exampleHost,0⟩ [.openFile [97#8] 1,.openFile [98#8] 1,.close 2] = .ok s ∧
      machine.step s (.openFile [99#8] 1) = .ok t ∧ t.r2 = 2 ∧
      Isolated s (.openFile [99#8] 1) t ∧
      machine.step s (.create [99#8]) = .ok u ∧ ¬ Isolated s (.create [99#8]) u := by
  refine ⟨_,_,_,rfl,rfl,rfl,?_,rfl,?_⟩
  · exact (descriptors_isolated_iff _ _ (.openFile [99#8] 1) rfl).mpr not_false
  · rw [descriptors_isolated_iff _ _ (.create [99#8]) rfl,not_not]
    exact ⟨List.cons_ne_nil _ _,3,rfl,rfl⟩

/-- Two files are opened, as 3 and 4 on the host, and the first one is closed.  The host
then calls a created file 3, and slot 3, which holds the second file, is closed. -/
theorem create_closes_another_file : ∃ s t, machine.Reachable s ∧
    machine.step s (.create [99#8]) = .ok t ∧ t.r2 = 0 ∧
      (s.fs.fdTable 3).isSome = true ∧ t.fs.fdTable 3 = none := by
  have hrun : ∃ s, machine.run ⟨.new exampleHost,0⟩
      [.openFile [97#8] 1,.openFile [98#8] 1,.close 2] = .ok s ∧
      ∃ t, machine.step s (.create [99#8]) = .ok t ∧ t.r2 = 0 ∧
        (s.fs.fdTable 3).isSome = true ∧ t.fs.fdTable 3 = none :=
    ⟨_,rfl,_,rfl,by decide,by decide,rfl⟩
  obtain ⟨s,hs,t,ht⟩ := hrun
  exact ⟨s,t,Machine.reachable_iff_run.mpr ⟨_,_,⟨exampleHost,rfl⟩,hs⟩,ht⟩

end Stub
end NachOS
