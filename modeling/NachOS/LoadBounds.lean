import NachOS.Load

/-! Which memory `AddrSpace::Load` writes.  The only test is on the sum of the segment sizes,
taken modulo `2 ^ 32`; each segment is copied to its own address. -/
namespace NachOS
namespace AddrSpace

open StateMachine hiding Machine
open Memory Hardware NoffHeader

/-! One segment. -/

/-- The bytes of a segment that the file has. -/
def available (file : List Byte) (s : Segment) : List Byte :=
  (file.drop s.inFileAddr.toNat).take s.size.toNat

/-- `Lseek` accepts the position of the segment in the file. -/
def Seekable (s : Segment) : Prop := 0 < s.size → 0 ≤ s.inFileAddr

/-- The bytes of the segment have room in main memory. -/
def Fits (file : List Byte) (s : Segment) : Prop :=
  0 < s.size → 0 ≤ s.virtualAddr ∧ s.virtualAddr + (available file s).length ≤ MemorySize

/-- Memory after the bytes of a segment were copied. -/
def stored (file : List Byte) (s : Segment) (memory : Buffer) : Buffer :=
  if s.size > 0 then
    bcopy (ofList (available file s)) 0 memory s.virtualAddr.toNat (available file s).length
  else memory

theorem stored_out {file : List Byte} {s : Segment} {memory : Buffer} {a : ℕ}
    (h : stored file s memory a ≠ memory a) : 0 < s.size ∧ s.virtualAddr.toNat ≤ a ∧
      a < s.virtualAddr.toNat + s.size.toNat := by
  unfold stored at h
  split at h
  · next hsize =>
    by_contra hout
    refine h (bcopy_out _ _ _ ?_)
    have hlen : (available file s).length ≤ s.size.toNat := List.length_take_le _ _
    omega
  · exact absurd rfl h

/-- No store leaves main memory, and a result has the property `G`. -/
def Safe {α : Type} (G : α → Prop) (r : Except Fault α) : Prop :=
  r ≠ .error .undefined ∧ ∀ x, r = .ok x → G x

section

variable {α : Type} {G : α → Prop}

theorem safe_ok {x : α} : Safe G (.ok x) ↔ G x := by
  constructor
  · intro h
    exact h.2 x rfl
  · intro h
    refine ⟨nofun,fun y hy => ?_⟩
    cases hy
    exact h

theorem safe_assertion : Safe G (.error .assertion) := by
  constructor <;> simp

theorem safe_check {c : Prop} [Decidable c] {k : Unit → Except Fault α} :
    Safe G (check c >>= k) ↔ (c → Safe G (k ())) := by
  by_cases hc : c
  · rw [check_of hc]
    exact ⟨fun h _ => h,fun h => h hc⟩
  · rw [check,if_neg hc]
    exact ⟨fun _ h => absurd h hc,fun _ => safe_assertion⟩

variable {host : Host} {f : Stub.OpenFile} {file : List Byte} {o : Description} {m : Machine}

theorem loadSegment_cases (h : Reads host f.file file o) {s : Segment}
    (hrange : s.inFileAddr ≤ Host.limit) (m : Machine) :
    (¬ Seekable s ∧ loadSegment f host m s = .error .assertion) ∨
    (Seekable s ∧ ¬ Fits file s ∧ loadSegment f host m s = .error .undefined) ∨
    (Seekable s ∧ Fits file s ∧ ∃ host' o', loadSegment f host m s =
        .ok (host',{ m with mainMemory := stored file s m.mainMemory }) ∧
      Reads host' f.file file o') := by
  unfold loadSegment stored
  by_cases hsize : s.size > 0
  swap
  · rw [if_neg hsize,if_neg hsize]
    exact Or.inr (Or.inr ⟨fun h => absurd h hsize,fun h => absurd h hsize,host,o,rfl,h⟩)
  rw [if_pos hsize,if_pos hsize]
  by_cases hseek : 0 ≤ s.inFileAddr
  · obtain ⟨host',o',hread,hreads⟩ := h.ReadAt s.inFileAddr hseek hrange s.size.toNat
    rw [Int.toNat_of_nonneg (by omega)] at hread
    have hread : f.ReadAt host s.size s.inFileAddr =
        .ok ((available file s).length,available file s,host') := hread
    rw [hread]
    by_cases hfits : 0 ≤ s.virtualAddr ∧ s.virtualAddr + (available file s).length ≤ MemorySize
    · refine Or.inr (Or.inr ⟨fun _ => hseek,fun _ => hfits,host',o',?_,hreads⟩)
      exact inBounds_bind_ok.mpr ⟨hfits,rfl⟩
    · refine Or.inr (Or.inl ⟨fun _ => hseek,fun hf => hfits (hf hsize),?_⟩)
      simp only [bind,Except.bind,inBounds]
      rw [if_neg hfits]
  · refine Or.inl ⟨fun hs => hseek (hs hsize),?_⟩
    have hlseek : Stub.Lseek host f.file s.inFileAddr .set = .error .assertion := by
      unfold Stub.Lseek Host.lseek
      simp only [h.description]
      rw [if_pos (Or.inl (by omega))]
      rfl
    simp only [Stub.OpenFile.ReadAt,hlseek]
    rfl

/-- What follows a segment is reached if the segment is read and fits. -/
theorem safe_loadSegment (h : Reads host f.file file o) {s : Segment}
    (hrange : s.inFileAddr ≤ Host.limit) (m : Machine) : ∃ host' o', Reads host' f.file file o' ∧
      ∀ k : Host × Machine → Except Fault α, Safe G (loadSegment f host m s >>= k) ↔
        (Seekable s → Fits file s ∧
          Safe G (k (host',{ m with mainMemory := stored file s m.mainMemory }))) := by
  rcases loadSegment_cases h hrange m with
    ⟨hs,hload⟩ | ⟨hs,hf,hload⟩ | ⟨hs,hf,host',o',hload,hreads⟩
  · refine ⟨host,o,h,fun k => ?_⟩
    rw [hload]
    exact ⟨fun _ hs' => absurd hs' hs,fun _ => safe_assertion⟩
  · refine ⟨host,o,h,fun k => ?_⟩
    rw [hload]
    exact ⟨fun hsafe => absurd rfl hsafe.1,fun hall => absurd (hall hs).1 hf⟩
  · refine ⟨host',o',hreads,fun k => ?_⟩
    rw [hload]
    exact ⟨fun hsafe _ => ⟨hf,hsafe⟩,fun hall => (hall hs).2⟩

end

/-! The whole file. -/

/-- Every segment lies in the pages of the address space. -/
def Inside (h : NoffHeader) : Prop :=
  ∀ n, 0 < (h.segment n).size → 0 ≤ (h.segment n).virtualAddr ∧
    (h.segment n).virtualAddr + (h.segment n).size ≤ (pages h * PageSize : ℕ)

/-- As long as the segments can be read, they have room in memory; if all can, `p` holds. -/
def Copied (file : List Byte) (p : Prop) : List Segment → Prop
  | [] => p
  | s :: ss => Seekable s → Fits file s ∧ Copied file p ss

theorem copied_congr {file : List Byte} {s : Segment} {p q : Prop} (h : p ↔ q) :
    (Seekable s → Fits file s ∧ p) ↔ (Seekable s → Fits file s ∧ q) :=
  imp_congr_right fun _ => and_congr_right fun _ => h

/-- What a successful `Load` should mean: the segments lie in the address space, the address
space in main memory, and a byte that was stored can be reached through the page table. -/
def Contained (h : NoffHeader) (m : Machine) :
    Bool × AddrSpace × Stub.FileSystem × Machine → Prop
  | (result,s,_,m') => result = true →
    (∀ n, 0 < (h.segment n).size → 0 ≤ (h.segment n).virtualAddr ∧
      (h.segment n).virtualAddr + (h.segment n).size ≤ (s.numPages * PageSize : ℕ)) ∧
    s.numPages * PageSize ≤ MemorySize ∧
    ∀ a, m'.mainMemory a ≠ m.mainMemory a → a < MemorySize ∧
      (s.RestoreState m').translation.physical (BitVec.ofNat 32 a) true = .ok (a / PageSize,a)

/-- Memory after the three segments were copied. -/
def storedAll (file : List Byte) (h : NoffHeader) (memory : Buffer) : Buffer :=
  stored file (h.segment .readonlyData) (stored file (h.segment .initData)
    (stored file (h.segment .code) memory))

theorem storedAll_out {file : List Byte} {h : NoffHeader} {memory : Buffer} {a : ℕ}
    (hne : storedAll file h memory a ≠ memory a) : ∃ n, 0 < (h.segment n).size ∧
      (h.segment n).virtualAddr.toNat ≤ a ∧
      a < (h.segment n).virtualAddr.toNat + (h.segment n).size.toNat := by
  by_contra hnone
  rw [not_exists] at hnone
  have hout : ∀ n memory, stored file (h.segment n) memory a = memory a := fun n memory =>
    not_not.mp fun hn => hnone n (stored_out hn)
  exact hne ((hout _ _).trans ((hout _ _).trans (hout _ _)))

theorem contained_iff {file : List Byte} {h : NoffHeader} (hpages : pages h ≤ NumPhysPages)
    (m : Machine) (numPages : ℕ) (fs : Stub.FileSystem) :
    Contained h (new m numPages).2 (true,{ (new m numPages).1 with numPages := pages h },fs,
      { (new m numPages).2 with
        mainMemory := storedAll file h (new m numPages).2.mainMemory }) ↔ Inside h := by
  constructor
  · intro hc
    exact (hc rfl).1
  · intro hinside _
    have hsize : pages h * PageSize ≤ MemorySize := Nat.mul_le_mul_right _ hpages
    refine ⟨hinside,hsize,fun a ha => ?_⟩
    obtain ⟨n,hn,hle,hlt⟩ := storedAll_out ha
    obtain ⟨h₀,h₁⟩ := hinside n hn
    have hin : a < pages h * PageSize := by omega
    have htoNat : (BitVec.ofNat 32 a).toNat = a := by
      rw [BitVec.toNat_ofNat]
      refine Nat.mod_eq_of_lt (hin.trans_le (hsize.trans (by decide)))
    refine ⟨hin.trans_le hsize,?_⟩
    have hphysical := physical_new m { (new m numPages).2 with
      mainMemory := storedAll file h (new m numPages).2.mainMemory }
      (x := BitVec.ofNat 32 a) hpages true
    rw [htoNat,if_pos hin] at hphysical
    exact hphysical

/-- `Load` stays in the address space just if the file is refused, or its segments fit in
memory as far as they are copied and, if all are, lie in the pages that the sum of their
sizes amounts to. -/
theorem load_contained_iff (fs : Stub.FileSystem) (fileName : Path) (i : ℕ)
    (hname : fs.host.names fileName = some i) (hregular : fs.host.directory i = false)
    (hgrants : (fs.host.openFd fileName .readWrite false false).1 ≠ -1) (m : Machine)
    (numPages : ℕ) (junk : Buffer)
    (hmagic : (header (fs.host.contents i) junk).noffMagic = NOFFMAGIC) :
    Safe (Contained (header (fs.host.contents i) junk) (new m numPages).2)
      ((new m numPages).1.Load fs fileName (new m numPages).2 junk) ↔
    (pages (header (fs.host.contents i) junk) ≤ NumPhysPages →
      Copied (fs.host.contents i) (Inside (header (fs.host.contents i) junk))
        [(header (fs.host.contents i) junk).segment .code,
          (header (fs.host.contents i) junk).segment .initData,
          (header (fs.host.contents i) junk).segment .readonlyData]) := by
  generalize hfile : fs.host.contents i = file at *
  obtain ⟨f,host,o,fs',hreads,hload⟩ := Load_opened hname hregular hgrants hfile
    (new m numPages).1 (new m numPages).2 junk
  generalize hheader : header file junk = h at *
  have hinRange : h.InRange := by
    rw [← hheader]
    exact inRange_fetch _
  have hrange : ∀ n, (h.segment n).inFileAddr ≤ Host.limit := by
    intro n
    have hint := ((inRange_iff.mp hinRange).2 n).2.1.2
    simp only [Host.limit]
    omega
  obtain ⟨host₁,o₁,hreads₁,hcode⟩ := safe_loadSegment (G := Contained h (new m numPages).2) hreads
    (hrange .code) (new m numPages).2
  obtain ⟨host₂,o₂,hreads₂,hinit⟩ := safe_loadSegment (G := Contained h (new m numPages).2) hreads₁
    (hrange .initData) _
  obtain ⟨host₃,o₃,hreads₃,hreadonly⟩ := safe_loadSegment (G := Contained h (new m numPages).2)
    hreads₂ (hrange .readonlyData) _
  obtain ⟨host₄,hclose⟩ := hreads₃.close
  have hreturn : pages h ≤ NumPhysPages →
      (Safe (Contained h (new m numPages).2) (Stub.Close host₃ f.file >>= fun host =>
        .ok (true,{ (new m numPages).1 with numPages := pages h },{ fs' with host := host },
          { (new m numPages).2 with
            mainMemory := storedAll file h (new m numPages).2.mainMemory })) ↔ Inside h) := by
    intro hpages
    rw [hclose]
    exact safe_ok.trans (contained_iff hpages m numPages _)
  rw [hload,safe_check,safe_check,hcode,hinit,hreadonly,forall_prop_of_true hmagic]
  refine forall_congr' fun hpages => ?_
  exact copied_congr (copied_congr (copied_congr (hreturn hpages)))

/-- A file with one byte of code for the given address. -/
def exampleHeader (virtualAddr : ℤ) : NoffHeader :=
  ⟨NOFFMAGIC,fun n => if n = .code then ⟨virtualAddr,headerSize,1⟩ else ⟨0,0,0⟩⟩

def exampleFiles (virtualAddr : ℤ) : Stub.FileSystem :=
  .new (Host.oneFile 97#8 ((exampleHeader virtualAddr).bytes ++ [255#8]))

def exampleLoad (virtualAddr : ℤ) : Except Fault (Bool × AddrSpace × Stub.FileSystem × Machine) :=
  (new exampleMachine 0).1.Load (exampleFiles virtualAddr) [97#8] (new exampleMachine 0).2
    fun _ => 0#8

/-- One byte of code at address 0. -/
theorem load_contained_iff_code :
    Safe (Contained (exampleHeader 0) (new exampleMachine 0).2) (exampleLoad 0) := by
  have hrange : (exampleHeader 0).InRange := by
    unfold InRange
    decide
  have hsafe := load_contained_iff (exampleFiles 0) [97#8] 3 rfl rfl (by decide) exampleMachine 0
    (fun _ => 0#8) rfl
  have hfile : (exampleFiles 0).host.contents 3 = (exampleHeader 0).bytes ++ [255#8] := rfl
  rw [hfile,header_of_bytes hrange] at hsafe
  refine hsafe.mpr fun _ _ => ⟨fun _ => by decide,fun _ => ⟨nofun,fun _ => ⟨nofun,fun n hn => ?_⟩⟩⟩
  cases n with
  | code => decide
  | initData | readonlyData | uninitData => cases hn

/-- A byte is stored behind main memory, and another one behind the nine pages of the address
space. -/
theorem load_writes_outside : exampleLoad 16384 = .error .undefined ∧
    ∃ s fs m, exampleLoad 1152 = .ok (true,s,fs,m) ∧ s.numPages = 9 ∧
      m.mainMemory 1152 = 255#8 ∧
      (s.RestoreState m).translation.physical 1152#32 true = .error .addressErrorException := by
  refine ⟨rfl,_,_,_,rfl,rfl,?_,rfl⟩
  rfl

end AddrSpace
end NachOS
