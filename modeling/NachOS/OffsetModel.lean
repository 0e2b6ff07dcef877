import NachOS.Calls

/-! The table of descriptors refines a model in which an open descriptor is a file, a private
offset and a mode.  The host's own offsets do not occur in the model. -/
namespace NachOS
namespace Stub

open StateMachine Memory

inductive Mode
  | readOnly | readWrite
  deriving DecidableEq

structure Descriptor where
  file : ℕ
  offset : ℕ
  mode : Mode

/-- What the calls are for. -/
structure FileModel where
  names : Path → Option ℕ
  contents : ℕ → List Byte
  descriptors : ℕ → Option Descriptor

namespace FileModel

def get (m : FileModel) (fd : ℤ) : Option Descriptor :=
  if fd < 2 ∨ fd ≥ tableSize then none else m.descriptors fd.toNat

def setDescriptor (m : FileModel) (i : ℕ) (d : Option Descriptor) : FileModel :=
  { m with descriptors := Function.update m.descriptors i d }

/-- The file `i` with the given name, which is empty if the name is new. -/
def withFile (m : FileModel) (name : Path) (i : ℕ) : FileModel :=
  if m.names name = some i then m
  else { m with
    names := Function.update m.names name (some i)
    contents := Function.update m.contents i [] }

def firstFree (m : FileModel) : Option ℕ :=
  (List.range' 2 (tableSize - 2)).find? (fun i => (m.descriptors i).isNone)

/-- `granted` is the file that the host opens, if it does. -/
def openFile (m : FileModel) (name : Path) (mode : Mode) (granted : Option ℕ) : ℤ × FileModel :=
  match granted with
  | none => (-1,m)
  | some i =>
    match m.firstFree with
    | none => (-1,m.withFile name i)
    | some j => (j,(m.withFile name i).setDescriptor j (some ⟨i,0,mode⟩))

def close (m : FileModel) (fd : ℤ) : ℤ × FileModel :=
  match m.get fd with
  | none => (-1,m)
  | some _ => (0,m.setDescriptor fd.toNat none)

def read (m : FileModel) (length : ℕ) (fd : ℤ) : ℤ × List Byte × FileModel :=
  match m.get fd with
  | none => (-1,[],m)
  | some d =>
    let bs := ((m.contents d.file).drop d.offset).take length
    (bs.length,bs,m.setDescriptor fd.toNat (some { d with offset := d.offset + bs.length }))

def write (m : FileModel) (buffer : Buffer) (length : ℕ) (fd : ℤ) : ℤ × FileModel :=
  match m.get fd with
  | none => (-1,m)
  | some d =>
    match d.mode with
    | .readOnly => (-1,m)
    | .readWrite =>
      let file := Host.overwrite (m.contents d.file) ((List.range length).map buffer) d.offset
      (length,{ m.setDescriptor fd.toNat (some { d with offset := d.offset + length }) with
        contents := Function.update m.contents d.file file })

def seek (m : FileModel) (position fd : ℤ) : ℤ × FileModel :=
  match m.get fd with
  | none => (-1,m)
  | some d =>
    let length := (m.contents d.file).length
    if position = -1 then
      (length,m.setDescriptor fd.toNat (some { d with offset := length }))
    else if 0 ≤ position ∧ position ≤ length then
      (position,m.setDescriptor fd.toNat (some { d with offset := position.toNat }))
    else (-1,m)

/-- The answers of the model; of `Create` and `Remove` it says nothing. -/
def answer (m : FileModel) (granted : Option ℕ) : Call → ℤ × List Byte × FileModel
  | .openFile name accessType =>
    let (result,m) := m.openFile name (if accessType = 0 then .readOnly else .readWrite) granted
    (result,[],m)
  | .close fd =>
    let (result,m) := m.close fd
    (result,[],m)
  | .read length fd => m.read length.toNat fd
  | .write buffer length fd =>
    let (result,m) := m.write buffer length.toNat fd
    (result,[],m)
  | .seek position fd =>
    let (result,m) := m.seek position fd
    (result,[],m)
  | .create _ | .remove _ => (0,[],m)

/-- The answers to a sequence of calls, each with the file that the host opened for it. -/
def replay (m : FileModel) : List (Call × Option ℕ) → List (ℤ × List Byte) × FileModel
  | [] => ([],m)
  | (c,granted) :: cs =>
    let (result,bytes,m) := m.answer granted c
    let (answers,m) := m.replay cs
    ((result,bytes) :: answers,m)

end FileModel

/-- A call with the file that the host opened for it, and its answer. -/
structure Event where
  call : Call
  granted : Option ℕ
  result : ℤ
  bytes : List Byte

/-- The file that the host opens for a call. -/
def granted (s : FileSystem) : Call → Option ℕ
  | .openFile name accessType =>
    let (fd,h) :=
      if accessType = 0 then s.host.openFd name .readOnly false false
      else s.host.openFd name .readWrite true false
    if fd = -1 then none else h.fstat fd
  | _ => none

/-- A sequence of calls, as the file system answers them. -/
def transcript (s : FileSystem) : List Call → Except Fault (List Event × FileSystem)
  | [] => return ([],s)
  | c :: cs => do
    let (result,bytes,t) ← sysCall s c
    let (events,u) ← transcript t cs
    return (⟨c,granted s c,result,bytes⟩ :: events,u)

/-- The calls of the model: access type 0 or 1, and lengths that are not negative. -/
def InModel : Call → Prop
  | .openFile _ accessType => accessType = 0 ∨ accessType = 1
  | .read length _ | .write _ length _ => 0 ≤ length
  | .close _ | .seek _ _ => True
  | .create _ | .remove _ => False

/-- The host writes all bytes of the call: they end below the greatest offset. -/
def Complete (s : FileSystem) : Call → Prop
  | .write _ length fd => ∀ f, s.get fd = some f → f.isWritable s.host = true →
    f.currentOffset + length ≤ Host.limit
  | _ => True

def CompleteWrites (s : FileSystem) : List Call → Prop
  | [] => True
  | c :: cs => Complete s c ∧
    ∀ result bytes t, sysCall s c = .ok (result,bytes,t) → CompleteWrites t cs

/-! The abstraction. -/

def Access.mode : Access → Mode
  | .readOnly => .readOnly
  | .writeOnly | .readWrite => .readWrite

def descriptor (s : FileSystem) (i : ℕ) : Option Descriptor :=
  if i < 2 ∨ i ≥ tableSize then none
  else
    match s.fdTable i with
    | none => none
    | some f => (s.host.description f.file).map
      (fun o => ⟨o.inode,f.currentOffset.toNat,Access.mode o.access⟩)

def model (s : FileSystem) : FileModel := ⟨s.host.names,s.host.contents,descriptor s⟩

variable {s : FileSystem} {h : Host} {f g : OpenFile} {o : Description} {fd : ℤ} {i j n : ℕ}

theorem descriptor_of_slot (hf : Slot s i f) (hn : f.file = n) (ho : s.host.fds n = some o) :
    descriptor s i = some ⟨o.inode,f.currentOffset.toNat,Access.mode o.access⟩ := by
  have hi : ¬ (i < 2 ∨ i ≥ tableSize) := by
    have h₁ := hf.1
    have h₂ := hf.2.1
    omega
  unfold descriptor
  rw [if_neg hi,hf.2.2]
  simp only [description_of_slot hn ho,Option.map_some]

theorem descriptor_of_none (hf : s.fdTable i = none) : descriptor s i = none := by
  unfold descriptor
  split
  · rfl
  · rw [hf]

theorem Held.isSome_descriptor (hs : Held s) (h₁ : 2 ≤ i) (h₂ : i < tableSize) :
    (descriptor s i).isNone = (s.fdTable i).isNone := by
  cases hf : s.fdTable i with
  | none =>
    rw [descriptor_of_none hf]
    rfl
  | some f =>
    obtain ⟨n,o,hn,ho,_⟩ := hs.isOpen i f ⟨h₁,h₂,hf⟩
    rw [descriptor_of_slot ⟨h₁,h₂,hf⟩ hn ho]
    rfl

theorem model_get_none (hf : s.get fd = none) : (model s).get fd = none := by
  unfold FileSystem.get at hf
  unfold FileModel.get
  split
  · rfl
  · next hfd =>
    rw [if_neg hfd] at hf
    exact descriptor_of_none hf

theorem model_get_some (hf : s.get fd = some f) (hn : f.file = n) (ho : s.host.fds n = some o) :
    (model s).get fd = some ⟨o.inode,f.currentOffset.toNat,Access.mode o.access⟩ := by
  obtain ⟨h₁,h₂,_⟩ := get_eq_some hf
  unfold FileModel.get
  rw [if_neg (by omega)]
  exact descriptor_of_slot (slot_of_get hf) hn ho

/-- The scan of the table finds the first free descriptor of the model. -/
theorem Held.firstFree (hs : Held s) : (model s).firstFree = s.findSlot 2 (tableSize - 2) := by
  have hscan : ∀ m i, 2 ≤ i → i + m ≤ tableSize →
      (List.range' i m).find? (fun j => (descriptor s j).isNone) = s.findSlot i m := by
    intro m
    induction m with
    | zero =>
      intro i _ _
      rfl
    | succ m ih =>
      intro i h₁ h₂
      rw [List.range'_succ,List.find?_cons,hs.isSome_descriptor h₁ (by omega)]
      unfold FileSystem.findSlot
      cases hfree : (s.fdTable i).isNone with
      | true => rfl
      | false =>
        rw [if_neg (by simp)]
        exact ih (i + 1) (by omega) (by omega)
  exact hscan _ _ (le_refl _) (by decide)

/-- One slot changes, and the descriptors of the others stay as they are. -/
theorem model_update {v : Option OpenFile} {d : Option Descriptor}
    (hother : ∀ i f, Slot s i f → i ≠ j → h.description f.file = s.host.description f.file)
    (hnew : descriptor ⟨Function.update s.fdTable j v,h⟩ j = d) :
    model ⟨Function.update s.fdTable j v,h⟩ =
      FileModel.setDescriptor ⟨h.names,h.contents,descriptor s⟩ j d := by
  have hupdate : descriptor ⟨Function.update s.fdTable j v,h⟩ =
      Function.update (descriptor s) j d := by
    funext i
    by_cases hij : i = j
    · subst hij
      rw [Function.update_self,hnew]
    · rw [Function.update_of_ne hij]
      by_cases hi : i < 2 ∨ i ≥ tableSize
      · simp only [descriptor,if_pos hi]
      · simp only [descriptor,if_neg hi,Function.update_of_ne hij]
        cases hf : s.fdTable i with
        | none => rfl
        | some f => simp only [hother i f ⟨by omega,by omega,hf⟩ hij]
  simp only [model,FileModel.setDescriptor,hupdate]

theorem Held.description_other (hs : Held s) (hf : Slot s i f) {v : Option Description}
    (hne : f.file ≠ n) (hfds : h.fds = Function.update s.host.fds n v) :
    h.description f.file = s.host.description f.file := by
  obtain ⟨m,o,hm,_⟩ := hs.isOpen i f hf
  rw [hm,Host.description_natCast,Host.description_natCast,hfds,
    Function.update_of_ne (by omega)]

/-- Between the calls: the offsets are in range and all files are regular. -/
structure Ready (s : FileSystem) : Prop where
  bounded : Bounded s
  regular : ∀ i, s.host.directory i = false

/-- The call does what the model says. -/
def Square (s : FileSystem) (c : Call) : Prop :=
  ∃ result bytes t, sysCall s c = .ok (result,bytes,t) ∧
    (model s).answer (granted s c) c = (result,bytes,model t) ∧ Ready t

theorem model_installed (hs : Held s) (hj : 2 ≤ j) (hj' : j < tableSize)
    (hfree : s.host.fds n = none) (hfds : h.fds = Function.update s.host.fds n (some o)) :
    model ⟨Function.update s.fdTable j (some (.new n)),h⟩ =
      FileModel.setDescriptor ⟨h.names,h.contents,descriptor s⟩ j
        (some ⟨o.inode,0,Access.mode o.access⟩) := by
  refine model_update (fun i f hf _ => hs.description_other hf (hs.ne_of_free hfree hf) hfds) ?_
  have hslot : Slot ⟨Function.update s.fdTable j (some (.new n)),h⟩ j (.new n) :=
    ⟨hj,hj',Function.update_self _ _ _⟩
  exact descriptor_of_slot hslot rfl ((congrFun hfds n).trans (Function.update_self _ _ _))

theorem model_closed (hs : Held s) (hk : Slot s j g) (hn : g.file = n)
    (hfds : h.fds = Function.update s.host.fds n none) :
    model ⟨Function.update s.fdTable j none,h⟩ =
      FileModel.setDescriptor ⟨h.names,h.contents,descriptor s⟩ j none := by
  refine model_update (fun i f hf hij => hs.description_other hf ?_ hfds) ?_
  · exact fun hfn => hij (hs.apart i j f g hf hk (hfn.trans hn.symm))
  · exact descriptor_of_none (Function.update_self _ _ _)

theorem model_moved (hs : Held s) (hk : Slot s j g) (hn : g.file = n) {p : ℕ} {q : ℤ}
    (hfds : h.fds = Function.update s.host.fds n (some { o with offset := p })) :
    model ⟨Function.update s.fdTable j (some { g with currentOffset := q }),h⟩ =
      FileModel.setDescriptor ⟨h.names,h.contents,descriptor s⟩ j
        (some ⟨o.inode,q.toNat,Access.mode o.access⟩) := by
  refine model_update (fun i f hf hij => hs.description_other hf ?_ hfds) ?_
  · exact fun hfn => hij (hs.apart i j f g hf hk (hfn.trans hn.symm))
  · have hslot : Slot ⟨Function.update s.fdTable j (some { g with currentOffset := q }),h⟩ j
        { g with currentOffset := q } := ⟨hk.1,hk.2.1,Function.update_self _ _ _⟩
    exact descriptor_of_slot (o := { o with offset := p }) hslot hn
      ((congrFun hfds n).trans (Function.update_self _ _ _))

theorem model_fds (hfds : h.fds = s.host.fds) :
    model { s with host := h } = ⟨h.names,h.contents,descriptor s⟩ := by
  have hdescriptor : descriptor { s with host := h } = descriptor s := by
    funext i
    unfold descriptor
    simp only [Host.description,hfds]
  simp only [model,hdescriptor]

/-- What the host does to names and contents when it opens a file. -/
theorem model_withFile {name : Path} {access : Access} {create : Bool}
    (ho : s.host.Opened name access create false n i h) :
    (model s).withFile name i = ⟨h.names,h.contents,descriptor s⟩ := by
  unfold FileModel.withFile model
  rcases ho.file with ⟨hname,_,_,_,hc⟩ | ⟨_,hname,_,_,_,_,hc⟩
  · have hnames : h.names = s.host.names := by
      rw [ho.names]
      exact Function.update_eq_self_iff.mpr hname.symm
    rw [if_pos hname,hnames,hc]
    rfl
  · have hnew : ¬ s.host.names name = some i := by simp [hname]
    rw [if_neg hnew,ho.names,hc]

theorem square_openFile (hs : Ready s) (name : Path) {accessType : ℤ}
    (ha : accessType = 0 ∨ accessType = 1) : Square s (.openFile name accessType) := by
  have hready : Ready (s.Open name accessType).2 := by
    refine ⟨hs.bounded.openFile name accessType,?_⟩
    have hr := Open_result s name accessType
    generalize s.Open name accessType = r at hr ⊢
    cases hr with
    | unknown => exact hs.regular
    | refused => exact hs.regular
    | full _ _ ho _ => exact ho.regular hs.regular
    | installed _ _ ho _ => exact ho.regular hs.regular
  have hgranted : ∀ access create, OpensWith accessType access create →
      granted s (.openFile name accessType) =
        if (s.host.openFd name access create false).1 = -1 then none
        else (s.host.openFd name access create false).2.fstat
          (s.host.openFd name access create false).1 := by
    rintro access create (⟨rfl,rfl,rfl⟩ | ⟨rfl,rfl,rfl⟩)
    · rfl
    · rfl
  have hmode : ∀ access create, OpensWith accessType access create →
      (if accessType = 0 then Mode.readOnly else Mode.readWrite) = Access.mode access := by
    rintro access create (⟨rfl,rfl,rfl⟩ | ⟨rfl,rfl,rfl⟩)
    · rfl
    · rfl
  refine ⟨(s.Open name accessType).1,[],(s.Open name accessType).2,rfl,?_,hready⟩
  simp only [FileModel.answer]
  have hr := Open_result s name accessType
  generalize s.Open name accessType = r at hr ⊢
  cases hr with
  | unknown h₀ h₁ => omega
  | refused hw hr =>
    rw [hgranted _ _ hw,hr]
    simp only [if_true,FileModel.openFile]
    rw [model_fds (h := s.host.next) rfl]
    rfl
  | @full access create n i h hw hr ho hfull =>
    rw [hgranted _ _ hw,hr,ho.granted]
    simp only [FileModel.openFile,hs.bounded.held.firstFree,hfull,model_withFile ho]
    rw [model_fds (h := { h with fds := s.host.fds }) rfl]
  | installed hw hr ho hj =>
    obtain ⟨hj₁,hj₂,_⟩ := findSlot_some hj
    rw [hgranted _ _ hw,hr,ho.granted,hmode _ _ hw]
    simp only [FileModel.openFile,hs.bounded.held.firstFree,hj,model_withFile ho]
    rw [model_installed hs.bounded.held hj₁ (by simp only [tableSize] at *; omega) ho.free ho.fds]

theorem square_close (hs : Ready s) (fd : ℤ) : Square s (.close fd) := by
  cases hf : s.get fd with
  | none =>
    refine ⟨-1,[],s,bind_ok.mpr ⟨_,Close_not_open hf,rfl⟩,?_,hs⟩
    simp only [FileModel.answer,FileModel.close,model_get_none hf]
  | some f =>
    obtain ⟨n,o,hn,ho,hclose⟩ := Close_held hs.bounded.held hf
    refine ⟨0,[],_,bind_ok.mpr ⟨_,hclose,rfl⟩,?_,?_⟩
    · simp only [FileModel.answer,FileModel.close,model_get_some hf hn ho]
      rw [model_closed hs.bounded.held (slot_of_get hf) hn rfl]
      rfl
    · exact ⟨hs.bounded.closed (slot_of_get hf) hn rfl (fun _ hj => hj),hs.regular⟩

theorem square_read (hs : Ready s) {length : ℤ} (hlength : 0 ≤ length) (fd : ℤ) :
    Square s (.read length fd) := by
  obtain ⟨length,rfl⟩ := Int.eq_ofNat_of_zero_le hlength
  cases hf : s.get fd with
  | none =>
    refine ⟨-1,[],s,SysRead_not_open hf _,?_,hs⟩
    simp only [FileModel.answer,FileModel.read,model_get_none hf]
  | some f =>
    obtain ⟨n,o,hn,ho,hacc,hslot,h₀,h₁,hfits⟩ := hs.bounded.slot hf
    have hdir := hs.regular o.inode
    obtain ⟨_,hwrap⟩ := read_range h₀ h₁ (hfits hdir) length
    refine ⟨_,_,_,SysRead_slot hf hn ho hacc hdir h₀ h₁ length rfl,?_,?_⟩
    · simp only [FileModel.answer,FileModel.read,model_get_some hf hn ho,Int.toNat_natCast]
      rw [model_moved hs.bounded.held hslot hn rfl,hwrap,Int.toNat_add h₀ (Int.natCast_nonneg _),
        Int.toNat_natCast]
      rfl
    · exact ⟨hs.bounded.read hf hn ho hdir length rfl,hs.regular⟩

theorem square_write (hs : Ready s) (buffer : Buffer) {length : ℤ} (hlength : 0 ≤ length) (fd : ℤ)
    (hc : Complete s (.write buffer length fd)) : Square s (.write buffer length fd) := by
  obtain ⟨length,rfl⟩ := Int.eq_ofNat_of_zero_le hlength
  cases hf : s.get fd with
  | none =>
    refine ⟨-1,[],s,bind_ok.mpr ⟨_,SysWrite_not_open hf _ _,rfl⟩,?_,hs⟩
    simp only [FileModel.answer,FileModel.write,model_get_none hf]
  | some f =>
    obtain ⟨n,o,hn,ho,hacc,hslot,h₀,h₁,hfits⟩ := hs.bounded.slot hf
    cases hmode : o.access with
    | writeOnly => exact absurd hmode hacc
    | readOnly =>
      refine ⟨-1,[],s,bind_ok.mpr ⟨_,SysWrite_readOnly hf hn ho hmode _ _,rfl⟩,?_,hs⟩
      simp only [FileModel.answer,FileModel.write,model_get_some hf hn ho,hmode,Access.mode]
    | readWrite =>
      have hroom : f.currentOffset.toNat + length ≤ Host.limit := by
        have hwritable : f.isWritable s.host = true := by
          simp [OpenFile.isWritable,description_of_slot hn ho,hmode]
        have hend := hc f hf hwritable
        omega
      have hwrap : wrap (f.currentOffset + length) = f.currentOffset + length := by
        simp only [Host.limit] at hroom
        exact wrap_of_range (by omega) (by omega)
      have hwrite := (SysWrite_slot_iff hf hn ho hmode h₀ h₁ buffer length).mpr ⟨hroom,rfl⟩
      refine ⟨_,_,_,bind_ok.mpr ⟨_,hwrite,rfl⟩,?_,?_⟩
      · simp only [FileModel.answer,FileModel.write,model_get_some hf hn ho,Int.toNat_natCast,
          hmode,Access.mode]
        rw [model_moved hs.bounded.held hslot hn rfl,hwrap,
          Int.toNat_add h₀ (Int.natCast_nonneg _),Int.toNat_natCast]
        simp only [Access.mode]
        rfl
      · exact ⟨hs.bounded.write hf hn ho buffer length hroom,hs.regular⟩

theorem square_seek (hs : Ready s) (position fd : ℤ) : Square s (.seek position fd) := by
  cases hf : s.get fd with
  | none =>
    refine ⟨-1,[],s,bind_ok.mpr ⟨_,SysSeek_not_open hf _,rfl⟩,?_,hs⟩
    simp only [FileModel.answer,FileModel.seek,model_get_none hf]
  | some f =>
    obtain ⟨n,o,hn,ho,hacc,hslot,h₀,h₁,hfits⟩ := hs.bounded.slot hf
    have hfile := hfits (hs.regular o.inode)
    have hseek := (SysSeek_slot_iff hf hn ho position).mpr ⟨hfile,rfl⟩
    refine ⟨_,_,_,bind_ok.mpr ⟨_,hseek,rfl⟩,?_,?_⟩
    · simp only [FileModel.answer,FileModel.seek,model_get_some hf hn ho]
      rw [model_moved hs.bounded.held hslot hn rfl]
      have hold : Function.update (descriptor s) fd.toNat
          (some ⟨o.inode,f.currentOffset.toNat,Access.mode o.access⟩) = descriptor s :=
        Function.update_eq_self_iff.mpr (descriptor_of_slot hslot hn ho).symm
      have hcontents : (model s).contents = s.host.contents := rfl
      by_cases hend : position = -1
      · simp only [seekTarget,if_pos hend]
        rfl
      · by_cases hin : 0 ≤ position ∧ position ≤ (s.host.contents o.inode).length
        · simp only [seekTarget,hcontents,if_neg hend,if_pos hin]
          rfl
        · simp only [seekTarget,hcontents,if_neg hend,if_neg hin,FileModel.setDescriptor,hold]
          rfl
    · exact ⟨hs.bounded.seek hf hn ho position hfile,hs.regular⟩

theorem square_of_inModel (hs : Ready s) {c : Call} (hc : InModel c) (hw : Complete s c) :
    Square s c := by
  cases c with
  | openFile name accessType => exact square_openFile hs name hc
  | close fd => exact square_close hs fd
  | read length fd => exact square_read hs hc fd
  | write buffer length fd => exact square_write hs buffer hc fd hw
  | seek position fd => exact square_seek hs position fd
  | create name => exact hc.elim
  | remove name => exact hc.elim

theorem transcript_replayed (hs : Ready s) {calls : List Call} (hcalls : ∀ c ∈ calls, InModel c)
    (hw : CompleteWrites s calls) : ∃ events t, transcript s calls = .ok (events,t) ∧
      (model s).replay (events.map (fun e => (e.call,e.granted))) =
        (events.map (fun e => (e.result,e.bytes)),model t) := by
  induction calls generalizing s with
  | nil => exact ⟨[],s,rfl,rfl⟩
  | cons c cs ih =>
    obtain ⟨hc,hcs⟩ := hw
    obtain ⟨result,bytes,t,hstep,hanswer,ht⟩ :=
      square_of_inModel hs (hcalls c List.mem_cons_self) hc
    obtain ⟨events,u,hrun,hreplay⟩ :=
      ih ht (fun d hd => hcalls d (List.mem_cons_of_mem c hd)) (hcs result bytes t hstep)
    refine ⟨⟨c,granted s c,result,bytes⟩ :: events,u,
      bind_ok.mpr ⟨_,hstep,bind_ok.mpr ⟨_,hrun,rfl⟩⟩,?_⟩
    simp only [List.map_cons,FileModel.replay,hanswer,hreplay]

/-- On a host with regular files that writes all it is asked to, every sequence of `Open`,
`Close`, `Read`, `Write` and `Seek` calls runs to its end with the answers of the model. -/
theorem descriptors_refine_offsets (host : Host) (hregular : ∀ i, host.directory i = false)
    (calls : List Call) (hcalls : ∀ c ∈ calls, InModel c)
    (hw : CompleteWrites (.new host) calls) :
    ∃ events t, transcript (.new host) calls = .ok (events,t) ∧
      (model (.new host)).replay (events.map (fun e => (e.call,e.granted))) =
        (events.map (fun e => (e.result,e.bytes)),model t) :=
  transcript_replayed ⟨bounded_new host,hregular⟩ hcalls hw

/-- A byte written through one descriptor is read through another one of the same file. -/
theorem descriptors_refine_offsets_shared : ∃ events t,
    transcript (.new exampleHost) [.openFile [97#8] 1,.openFile [97#8] 0,
      .write (fun _ => 65#8) 1 2,.read 4 3] = .ok (events,t) ∧
    events.map (fun e => (e.result,e.bytes)) = [(2,[]),(3,[]),(1,[]),(1,[65#8])] ∧
    (model (.new exampleHost)).replay (events.map (fun e => (e.call,e.granted))) =
      (events.map (fun e => (e.result,e.bytes)),model t) := by
  let calls : List Call :=
    [.openFile [97#8] 1,.openFile [97#8] 0,.write (fun _ => 65#8) 1 2,.read 4 3]
  have hcalls : ∀ c ∈ calls, InModel c := by
    intro c hc
    simp only [calls,List.mem_cons,List.not_mem_nil,or_false] at hc
    rcases hc with rfl | rfl | rfl | rfl <;> simp [InModel]
  have hw : CompleteWrites (.new exampleHost) calls := by
    refine ⟨trivial,fun _ _ s hs => ⟨trivial,fun _ _ t ht => ⟨?_,fun _ _ _ _ => ⟨trivial,?_⟩⟩⟩⟩
    · intro f hf _
      cases hs
      cases ht
      cases hf
      decide
    · exact fun _ _ _ _ => trivial
  have hrun : ∃ events t, transcript (.new exampleHost) calls = .ok (events,t) ∧
      events.map (fun e => (e.result,e.bytes)) = [(2,[]),(3,[]),(1,[]),(1,[65#8])] :=
    ⟨_,_,rfl,rfl⟩
  obtain ⟨events,t,hevents,hanswers⟩ := hrun
  obtain ⟨events',t',hevents',hreplay⟩ :=
    descriptors_refine_offsets exampleHost (fun _ => rfl) calls hcalls hw
  cases hevents.symm.trans hevents'
  exact ⟨events,t,hevents,hanswers,hreplay⟩

end Stub
end NachOS
