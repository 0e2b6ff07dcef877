import NachOS.Slots

/-! Whole runs of the calls that open, close, create and remove files of the host: which
descriptors the process holds, and which names the open files have. -/
namespace NachOS
namespace Stub

open StateMachine Memory

/-! Descriptors of the host are balanced. -/

/-- The runs on a given host. -/
def machineOn (host : Host) : Machine State Action := ⟨fun s => s = ⟨.new host,0⟩,step⟩

/-- The step is not a `Create` that opens a file. -/
def NoCreate (_ : State) (a : Action) : Prop := ∀ name, a = .create name → name = []

/-- The process holds the descriptors it had on `host₀` and those of the slots. -/
structure Balanced (host₀ : Host) (s : FileSystem) : Prop where
  held : Held s
  kept : ∀ n, host₀.fds n ≠ none → s.host.fds n = host₀.fds n
  owned : ∀ n, s.host.fds n ≠ none → host₀.fds n = none → ∃ i f, Slot s i f ∧ f.file = n
  fresh : ∀ i f (n : ℕ), Slot s i f → f.file = n → host₀.fds n = none

section Balanced

variable {host₀ h : Host} {s : FileSystem} {f : OpenFile} {o : Description} {j k n : ℕ}

theorem Balanced.same (hs : Balanced host₀ s) (hfds : h.fds = s.host.fds) :
    Balanced host₀ { s with host := h } where
  held := hs.held.same hfds
  kept := fun n hn => (congrFun hfds n).trans (hs.kept n hn)
  owned := fun n hn => hs.owned n (fun he => hn ((congrFun hfds n).trans he))
  fresh := hs.fresh

theorem Balanced.installed (hs : Balanced host₀ s) (hfree : s.host.fds n = none)
    (hacc : o.access ≠ .writeOnly) (hfds : h.fds = Function.update s.host.fds n (some o))
    (hj₁ : 2 ≤ j) (hj₂ : j < tableSize) (hj : s.fdTable j = none) :
    Balanced host₀ ⟨Function.update s.fdTable j (some (.new n)),h⟩ := by
  have hnew : host₀.fds n = none := by
    by_contra hn
    exact hn ((hs.kept n hn).symm.trans hfree)
  constructor
  · exact hs.held.installed hfree hacc hfds
  · intro m hm
    have hmn : m ≠ n := by
      rintro rfl
      exact hm hnew
    simp only [hfds,Function.update_of_ne hmn]
    exact hs.kept m hm
  · intro m hm hm₀
    by_cases hmn : m = n
    · subst hmn
      exact ⟨j,.new m,⟨hj₁,hj₂,Function.update_self _ _ _⟩,rfl⟩
    · simp only [hfds,Function.update_of_ne hmn] at hm
      obtain ⟨i,f,hf,hfm⟩ := hs.owned m hm hm₀
      have hij : i ≠ j := by
        rintro rfl
        rw [hf.2.2] at hj
        cases hj
      exact ⟨i,f,slot_of_installed hij hf,hfm⟩
  · intro i f m hf hm
    rcases slot_installed hf with ⟨_,rfl⟩ | ⟨_,hf⟩
    · have hmn : n = m := by
        simpa [OpenFile.new] using hm
      exact hmn ▸ hnew
    · exact hs.fresh i f m hf hm

theorem Balanced.closed (hs : Balanced host₀ s) (hk : Slot s k f) (hn : f.file = n)
    (hfds : h.fds = Function.update s.host.fds n none) :
    Balanced host₀ ⟨Function.update s.fdTable k none,h⟩ := by
  have hnew := hs.fresh k f n hk hn
  constructor
  · exact hs.held.closed hk hn hfds
  · intro m hm
    have hmn : m ≠ n := by
      rintro rfl
      exact hm hnew
    simp only [hfds,Function.update_of_ne hmn]
    exact hs.kept m hm
  · intro m hm hm₀
    by_cases hmn : m = n
    · subst hmn
      simp [hfds] at hm
    · simp only [hfds,Function.update_of_ne hmn] at hm
      obtain ⟨i,g,hg,hgm⟩ := hs.owned m hm hm₀
      have hik : i ≠ k := by
        rintro rfl
        have hfg : f = g := Option.some.inj (hk.2.2.symm.trans hg.2.2)
        subst hfg
        omega
      exact ⟨i,g,slot_of_closed hik hg,hgm⟩
  · intro i g m hg hm
    exact hs.fresh i g m (slot_closed hg).2 hm

theorem Balanced.openFile (hs : Balanced host₀ s) (name : Path) (accessType : ℤ) :
    Balanced host₀ (s.Open name accessType).2 := by
  have hr := Open_result s name accessType
  generalize s.Open name accessType = r at hr ⊢
  cases hr with
  | unknown => exact hs
  | refused => exact hs.same rfl
  | full => exact hs.same rfl
  | installed hw _ ho hj =>
    obtain ⟨hj₁,hj₂,hnone,_⟩ := findSlot_some hj
    exact hs.installed ho.free (opensWith_access hw) ho.fds hj₁
      (by simp only [tableSize] at *; omega) hnone

theorem Balanced.close (hs : Balanced host₀ s) (fd : ℤ) :
    ∃ r s', s.Close fd = .ok (r,s') ∧ Balanced host₀ s' := by
  cases hf : s.get fd with
  | none => exact ⟨_,_,Close_not_open hf,hs⟩
  | some f =>
    obtain ⟨n,o,hn,_,hclose⟩ := Close_held hs.held hf
    exact ⟨_,_,hclose,hs.closed (slot_of_get hf) hn rfl⟩

theorem Balanced.remove (hs : Balanced host₀ s) (name : Path) :
    Balanced host₀ (SysRemove s name).2 := by
  rcases SysRemove_result s name with ⟨_,choices,hr⟩ | ⟨_,i,choices,_,_,hr⟩
  · rw [hr]
    exact hs.same rfl
  · rw [hr]
    exact hs.same rfl

theorem balanced_new (host : Host) : Balanced host (.new host) where
  held := held_new host
  kept := fun _ _ => rfl
  owned := fun _ hn h₀ => absurd h₀ hn
  fresh := fun i f _ hf _ => absurd hf (not_slot_new host i f)

theorem Balanced.step {s : State} {a : Action} (hs : Balanced host₀ s.fs)
    (hc : NoCreate s a) : ∃ t, step s a = .ok t ∧ Balanced host₀ t.fs := by
  cases a with
  | openFile name accessType => exact ⟨_,rfl,hs.openFile name accessType⟩
  | close fd =>
    obtain ⟨r,fs,hclose,hfs⟩ := hs.close fd
    exact ⟨⟨fs,r⟩,bind_ok.mpr ⟨_,hclose,rfl⟩,hfs⟩
  | create name =>
    obtain rfl := hc name rfl
    exact ⟨⟨s.fs,-1⟩,rfl,hs⟩
  | remove name => exact ⟨_,rfl,hs.remove name⟩

end Balanced

/-- In every run without a `Create` that opens a file: the descriptors opened since the start
are those in the slots, one slot for each; when all slots are closed the process holds the
descriptors it started with; and no call stops at an assertion. -/
theorem descriptors_balanced {host : Host} {s : State}
    (h : (machineOn host).ReachableWith NoCreate s) :
    (∀ n : ℕ, s.fs.host.fds n ≠ none ∧ host.fds n = none ↔
      ∃! i, ∃ f, Slot s.fs i f ∧ f.file = n) ∧
    (∀ n, host.fds n ≠ none → s.fs.host.fds n = host.fds n) ∧
    ((∀ i f, ¬ Slot s.fs i f) → s.fs.host.fds = host.fds) ∧
    ∀ a, NoCreate s a → step s a ≠ .error .assertion := by
  have hs : Balanced host s.fs := by
    apply Machine.ReachableWith.invariant _ _ h
    · rintro s rfl
      exact balanced_new host
    · intro s a t hs hc ht
      obtain ⟨t',ht',hb⟩ := hs.step hc
      cases ht.symm.trans ht'
      exact hb
  refine ⟨fun n => ⟨?_,?_⟩,hs.kept,?_,?_⟩
  · rintro ⟨hopen,hnew⟩
    obtain ⟨i,f,hf,hn⟩ := hs.owned n hopen hnew
    refine ⟨i,⟨f,hf,hn⟩,?_⟩
    rintro j ⟨g,hg,hgn⟩
    exact hs.held.apart j i g f hg hf (hgn.trans hn.symm)
  · rintro ⟨i,⟨f,hf,hn⟩,_⟩
    obtain ⟨m,o,hm,ho,_⟩ := hs.held.isOpen i f hf
    have hmn : m = n := by omega
    subst hmn
    exact ⟨by simp [ho],hs.fresh i f m hf hn⟩
  · intro hempty
    funext n
    by_cases hn : host.fds n = none
    · by_contra hne
      rw [hn] at hne
      obtain ⟨i,f,hf,_⟩ := hs.owned n hne hn
      exact hempty i f hf
    · exact hs.kept n hn
  · intro a hc hfail
    obtain ⟨t,ht,_⟩ := hs.step hc
    rw [ht] at hfail
    cases hfail

/-- One file is opened and closed again. -/
theorem descriptors_balanced_open_close : ∃ s,
    (machineOn exampleHost).ReachableWith NoCreate s ∧ s.fs.host.fds = exampleHost.fds ∧
      s.fs.host.names [97#8] = some 10 := by
  have hrun : ∃ s t, (machineOn exampleHost).step ⟨.new exampleHost,0⟩ (.openFile [97#8] 1) = .ok s ∧
      (machineOn exampleHost).step s (.close 2) = .ok t ∧ t.fs.host.names [97#8] = some 10 ∧
      t.fs.fdTable = Function.update (Function.update (FileSystem.new exampleHost).fdTable 2
        (some (.new 3))) 2 none := ⟨_,_,rfl,rfl,rfl,rfl⟩
  obtain ⟨s,t,hs,ht,hname,htable⟩ := hrun
  have hreach : (machineOn exampleHost).ReachableWith NoCreate t := by
    refine ((Machine.ReachableWith.start rfl).step ?_ hs).step ?_ ht
    · intro name hname
      cases hname
    · intro name hname
      cases hname
  refine ⟨t,hreach,(descriptors_balanced hreach).2.2.1 ?_,hname⟩
  rintro i f ⟨h₁,h₂,hf⟩
  rw [htable,Function.update_idem] at hf
  exact not_slot_new exampleHost i f
    (slot_closed (s := .new exampleHost) (h := exampleHost) ⟨h₁,h₂,hf⟩).2

/-- `Create` leaves its descriptor open, and in no slot. -/
theorem create_leaks_descriptor : ∃ s, (machineOn exampleHost).Reachable s ∧ s.r2 = 0 ∧
    exampleHost.fds 3 = none ∧ s.fs.host.fds 3 ≠ none ∧ ∀ i f, ¬ Slot s.fs i f := by
  have hrun : ∃ s, (machineOn exampleHost).step ⟨.new exampleHost,0⟩ (.create [97#8]) = .ok s ∧
      s.r2 = 0 ∧
      s.fs.host.fds 3 ≠ none ∧ s.fs.fdTable = (FileSystem.new exampleHost).fdTable :=
    ⟨_,rfl,rfl,by decide,rfl⟩
  obtain ⟨s,hs,hr,hleak,htable⟩ := hrun
  refine ⟨s,(Machine.Reachable.start rfl).step hs,hr,rfl,hleak,?_⟩
  rintro i f ⟨h₁,h₂,hf⟩
  rw [htable] at hf
  exact not_slot_new exampleHost i f ⟨h₁,h₂,hf⟩

/-! Open files keep their names. -/

/-- A state with the name under which the file in each slot was opened. -/
structure Named where
  state : State
  opened : ℕ → Path

/-- The names after a call with the given result. -/
def recordName : Action → ℤ → (ℕ → Path) → ℕ → Path
  | .openFile name _,result,opened =>
    if result = -1 then opened else Function.update opened result.toNat name
  | _,_,opened => opened

def namedStep (s : Named) (a : Action) : Except Fault Named := do
  let t ← step s.state a
  return ⟨t,recordName a t.r2 s.opened⟩

def namedMachine : Machine Named Action := ⟨fun s => Started s.state,namedStep⟩

/-- The file in each slot still has the name that was recorded. -/
structure NamesKept (s : FileSystem) (opened : ℕ → Path) : Prop where
  held : Held s
  named : ∀ i f (n : ℕ) o, Slot s i f → f.file = n → s.host.fds n = some o →
    s.host.names (opened i) = some o.inode

section NamesKept

variable {h : Host} {s : FileSystem} {opened : ℕ → Path} {f : OpenFile} {o : Description}
  {j k n : ℕ} {name : Path}

variable (hs : NamesKept s opened)
include hs

theorem NamesKept.same (hfds : h.fds = s.host.fds)
    (hnames : ∀ p i, s.host.names p = some i → h.names p = some i) :
    NamesKept { s with host := h } opened where
  held := hs.held.same hfds
  named := fun i f n o hf hn ho =>
    hnames _ _ (hs.named i f n o hf hn ((congrFun hfds n).symm.trans ho))

theorem NamesKept.opens (hfree : s.host.fds n = none)
    (hfds : h.fds = Function.update s.host.fds n (some o))
    (hnames : ∀ p i, s.host.names p = some i → h.names p = some i) :
    NamesKept { s with host := h } opened := by
  refine ⟨hs.held.opened hfree hfds,?_⟩
  intro i f m o' hf hm ho'
  have hne := hs.held.ne_of_free hfree hf
  simp only [hfds,Function.update_of_ne (show m ≠ n by omega)] at ho'
  exact hnames _ _ (hs.named i f m o' hf hm ho')

theorem NamesKept.installed (hfree : s.host.fds n = none)
    (hacc : o.access ≠ .writeOnly) (hfds : h.fds = Function.update s.host.fds n (some o))
    (hnames : ∀ p i, s.host.names p = some i → h.names p = some i)
    (hname : h.names name = some o.inode) :
    NamesKept ⟨Function.update s.fdTable j (some (.new n)),h⟩
      (Function.update opened j name) := by
  refine ⟨hs.held.installed hfree hacc hfds,?_⟩
  intro i f m o' hf hm ho'
  rcases slot_installed hf with ⟨rfl,rfl⟩ | ⟨hij,hf⟩
  · have hnm : m = n := by
      simpa [OpenFile.new] using hm.symm
    subst hnm
    simp only [hfds,Function.update_self] at ho'
    cases ho'
    rw [Function.update_self]
    exact hname
  · rw [Function.update_of_ne hij]
    exact (hs.opens hfree hfds hnames).named i f m o' hf hm ho'

theorem NamesKept.closed (hk : Slot s k f) (hn : f.file = n)
    (hfds : h.fds = Function.update s.host.fds n none) (hnames : h.names = s.host.names) :
    NamesKept ⟨Function.update s.fdTable k none,h⟩ opened := by
  refine ⟨hs.held.closed hk hn hfds,?_⟩
  intro i g m o hg hm ho
  have hmn : m ≠ n := by
    rintro rfl
    simp [hfds] at ho
  simp only [hfds,Function.update_of_ne hmn] at ho
  simp only [hnames]
  exact hs.named i g m o (slot_closed hg).2 hm ho

theorem NamesKept.openFile (name : Path) (accessType : ℤ) :
    NamesKept (s.Open name accessType).2
      (recordName (.openFile name accessType) (s.Open name accessType).1 opened) := by
  have hr := Open_result s name accessType
  generalize s.Open name accessType = r at hr ⊢
  cases hr with
  | unknown => exact hs
  | refused => exact hs.same rfl (fun _ _ hp => hp)
  | full _ _ ho _ => exact hs.same rfl (fun _ _ => ho.names_kept)
  | @installed access create n i j h hw _ ho _ =>
    have hj : ¬ (j : ℤ) = -1 := by omega
    simp only [recordName,if_neg hj,Int.toNat_natCast]
    refine hs.installed ho.free (opensWith_access hw) ho.fds (fun _ _ => ho.names_kept) ?_
    rw [ho.names,Function.update_self]

theorem NamesKept.close {fd r : ℤ} {s' : FileSystem}
    (h : s.Close fd = .ok (r,s')) : NamesKept s' opened := by
  cases hf : s.get fd with
  | none =>
    rw [Close_not_open hf] at h
    cases h
    exact hs
  | some f =>
    obtain ⟨n,o,hn,_,hclose⟩ := Close_held hs.held hf
    rw [hclose] at h
    cases h
    exact hs.closed (slot_of_get hf) hn rfl rfl

theorem NamesKept.create {r : Bool} {s' : FileSystem}
    (h : s.Create name = .ok (r,s')) : NamesKept s' opened := by
  obtain ⟨n,i,h',ho,_,⟨_,rfl⟩ | ⟨f,m,o,hf,hm,_,_,rfl⟩⟩ := Create_held hs.held h
  · exact hs.opens ho.free ho.fds (fun _ _ => ho.names_kept)
  · have hslot : Slot s n f := slot_of_get hf
    exact (hs.opens ho.free ho.fds (fun _ _ => ho.names_kept)).closed hslot hm rfl rfl

/-- The name that is taken away belongs to a file that is in no slot. -/
theorem NamesKept.remove (name : Path) :
    NamesKept (SysRemove s name).2 opened := by
  rcases SysRemove_result s name with ⟨_,choices,hr⟩ | ⟨_,i,choices,hname,hother,hr⟩
  · rw [hr]
    exact hs.same rfl (fun _ _ hp => hp)
  · rw [hr]
    refine ⟨hs.held.same rfl,?_⟩
    intro j f n o hf hn ho
    have hkept := hs.named j f n o hf hn ho
    have hne : opened j ≠ name := by
      intro he
      rw [he,hname] at hkept
      exact hother j f n o hf hn ho (Option.some.inj hkept).symm
    simp only [Function.update_of_ne hne]
    exact hkept

end NamesKept

theorem NamesKept.step {s t : Named} {a : Action} (hs : NamesKept s.state.fs s.opened)
    (ht : namedStep s a = .ok t) : NamesKept t.state.fs t.opened := by
  obtain ⟨u,hu,ht⟩ := bind_ok.mp ht
  cases ht
  cases a with
  | openFile name accessType =>
    cases hu
    exact hs.openFile name accessType
  | close fd =>
    obtain ⟨⟨r,fs⟩,hclose,hu⟩ := bind_ok.mp hu
    cases hu
    exact hs.close hclose
  | create name =>
    obtain ⟨⟨r,fs⟩,hcreate,hu⟩ := bind_ok.mp hu
    cases hu
    rcases SysCreate_cases hcreate with ⟨_,_,rfl⟩ | ⟨success,hrun,_⟩
    · exact hs
    · exact hs.create hrun
  | remove name =>
    cases hu
    exact hs.remove name

/-- In every run the file in each slot still has the name it was opened under, and `Remove`
takes a name away only from a file that is in no slot, or changes nothing. -/
theorem open_files_keep_names {s : Named} (h : namedMachine.Reachable s) :
    (∀ i f, Slot s.state.fs i f → ∃ o, s.state.fs.host.description f.file = some o ∧
      s.state.fs.host.names (s.opened i) = some o.inode) ∧
    ∀ name t, namedStep s (.remove name) = .ok t →
      (t.state.r2 = 0 ∧ ∃ inode, s.state.fs.host.names name = some inode ∧
        ∀ i f o, Slot s.state.fs i f → s.state.fs.host.description f.file = some o →
          o.inode ≠ inode) ∨
      (t.state.r2 = -1 ∧ ∃ choices, t.state.fs =
        { s.state.fs with host := { s.state.fs.host with choices := choices } }) := by
  have hs : NamesKept s.state.fs s.opened := by
    apply Machine.Reachable.invariant _ _ h
    · rintro s ⟨host,hs⟩
      rw [hs]
      exact ⟨held_new host,fun i f _ _ hf => absurd hf (not_slot_new host i f)⟩
    · intro s a t hs ht
      exact hs.step ht
  have hopen : ∀ i f, Slot s.state.fs i f → ∃ (n : ℕ) (o : Description), f.file = n ∧
      s.state.fs.host.fds n = some o ∧ s.state.fs.host.description f.file = some o := by
    intro i f hf
    obtain ⟨n,o,hn,ho,_⟩ := hs.held.isOpen i f hf
    exact ⟨n,o,hn,ho,by rw [hn,Host.description_natCast,ho]⟩
  constructor
  · intro i f hf
    obtain ⟨n,o,hn,ho,hd⟩ := hopen i f hf
    exact ⟨o,hd,hs.named i f n o hf hn ho⟩
  · intro name t ht
    obtain ⟨u,hu,ht⟩ := bind_ok.mp ht
    cases ht
    cases hu
    rcases SysRemove_result s.state.fs name with ⟨hr,hfs⟩ | ⟨hr,inode,_,hname,hother,_⟩
    · exact Or.inr ⟨hr,hfs⟩
    · refine Or.inl ⟨hr,inode,hname,?_⟩
      intro i f o hf hd
      obtain ⟨n,o',hn,ho,hd'⟩ := hopen i f hf
      cases hd.symm.trans hd'
      exact hother i f n o hf hn ho

/-- An open file is not removed. -/
theorem open_files_keep_names_refused : ∃ s t, namedMachine.Reachable s ∧
    namedStep s (.remove [97#8]) = .ok t ∧ t.state.r2 = -1 ∧
      t.state.fs.host.names [97#8] = some 10 := by
  have hrun : ∃ s t, namedMachine.step ⟨⟨.new exampleHost,0⟩,fun _ => []⟩
      (.openFile [97#8] 1) = .ok s ∧ namedStep s (.remove [97#8]) = .ok t ∧
      s.state.fs.host.names [97#8] = some 10 ∧ t.state.r2 = -1 := ⟨_,_,rfl,rfl,rfl,rfl⟩
  obtain ⟨s,t,hs,ht,hname,hr⟩ := hrun
  have hstart : namedMachine.initial ⟨⟨.new exampleHost,0⟩,fun _ => []⟩ := ⟨exampleHost,rfl⟩
  have hreach : namedMachine.Reachable s := (Machine.Reachable.start hstart).step hs
  refine ⟨s,t,hreach,ht,hr,?_⟩
  rcases (open_files_keep_names hreach).2 _ t ht with ⟨hr',_⟩ | ⟨_,choices,hfs⟩
  · omega
  · rw [hfs]
    exact hname

end Stub
end NachOS
