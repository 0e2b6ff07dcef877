import NachOS.OpenFile

/-! Open files of the disk file system as byte arrays of a fixed length.  The abstract
side keeps one array per file and a position per open file; the concrete side is the
disk and the `OpenFile` objects. -/
namespace NachOS
namespace FileArray

open StateMachine Memory FileHeader OpenFile

/-- The calls: `h` names an open file, `i` a file.  The last arguments of the transfers
are what their buffers contain before they are filled. -/
inductive Op (ι H : Type)
  | openFile (h : H) (i : ι)
  | readAt (h : H) (into : Buffer) (numBytes position : ℤ) (buf : Buffer)
  | writeAt (h : H) (src : Buffer) (numBytes position : ℤ) (buf buf₁ buf₂ : Buffer)
  | read (h : H) (into : Buffer) (numBytes : ℤ) (buf : Buffer)
  | write (h : H) (src : Buffer) (numBytes : ℤ) (buf buf₁ buf₂ : Buffer)
  | seek (h : H) (position : ℤ)

/-- What a call returns; a read also leaves bytes in the caller's buffer. -/
inductive Output
  | done | read (count : ℤ) (into : Buffer) | wrote (count : ℤ)

variable {ι H : Type} [DecidableEq ι] [DecidableEq H]

/-! The arrays. -/

/-- The bytes a read at `p` delivers: `drop` and `take` clip it to the end. -/
def readAt (a : List Byte) (n p : ℕ) : List Byte := (a.drop p).take n

/-- The array after `data` was written at `p`, as far as it fits. -/
def writeAt (a data : List Byte) (p : ℕ) : List Byte :=
  a.take p ++ data.take (a.length - p) ++ a.drop (p + data.length)

/-- The buffer of the caller after the bytes were put at its start. -/
def put (bs : List Byte) (into : Buffer) : Buffer := fun j => bs.getD j (into j)

def bytes (src : Buffer) (n : ℕ) : List Byte := (List.range n).map src

structure Spec (ι H : Type) where
  contents : ι → List Byte
  position : H → Option (ι × ℕ)

/-- The positions and lengths the array model speaks about. -/
def Legal (numBytes position : ℤ) : Prop := 0 ≤ position ∧ position < 2 ^ 31 ∧
  position + numBytes < 2 ^ 31

instance (n p : ℤ) : Decidable (Legal n p) := inferInstanceAs (Decidable (_ ∧ _))

def Spec.step (a : Spec ι H) : Op ι H → Option (Output × Spec ι H)
  | .openFile h i => some (.done,{ a with position := Function.update a.position h (some (i,0)) })
  | .readAt h into n p _ => do
    let (i,_) ← a.position h
    if Legal n p then
      let bs := FileArray.readAt (a.contents i) n.toNat p.toNat
      return (.read bs.length (put bs into),a)
    else none
  | .writeAt h src n p _ _ _ => do
    let (i,_) ← a.position h
    if Legal n p then
      let bs := (bytes src n.toNat).take ((a.contents i).length - p.toNat)
      let contents := FileArray.writeAt (a.contents i) (bytes src n.toNat) p.toNat
      return (.wrote bs.length,{ a with contents := Function.update a.contents i contents })
    else none
  | .read h into n _ => do
    let (i,p) ← a.position h
    if Legal n p then
      let bs := FileArray.readAt (a.contents i) n.toNat p
      return (.read bs.length (put bs into),
        { a with position := Function.update a.position h (some (i,p + bs.length)) })
    else none
  | .write h src n _ _ _ => do
    let (i,p) ← a.position h
    if Legal n p then
      let bs := (bytes src n.toNat).take ((a.contents i).length - p)
      let contents := FileArray.writeAt (a.contents i) (bytes src n.toNat) p
      return (.wrote bs.length,⟨Function.update a.contents i contents,
        Function.update a.position h (some (i,p + bs.length))⟩)
    else none
  | .seek h p => do
    let (i,_) ← a.position h
    if Legal 0 p then
      return (.done,{ a with position := Function.update a.position h (some (i,p.toNat)) })
    else none

def Spec.run (a : Spec ι H) : List (Op ι H) → Option (List Output × Spec ι H)
  | [] => some ([],a)
  | op :: ops => do
    let (out,a) ← a.step op
    let (outs,a) ← a.run ops
    return (out :: outs,a)

/-! The code. -/

structure State (ι H : Type) where
  disk : Disk
  files : H → Option (ι × OpenFile)

/-- `headerSector i` is where the header of file `i` is. -/
def step (headerSector : ι → ℕ) (s : State ι H) :
    Op ι H → Except Fault (Output × State ι H)
  | .openFile h i => do
    let f ← OpenFile.new s.disk (headerSector i)
    return (.done,{ s with files := Function.update s.files h (some (i,f)) })
  | .readAt h into n p buf =>
    match s.files h with
    | none => .error .blocked
    | some (_,f) => do
      let (count,into) ← f.ReadAt s.disk into 0 n p buf
      return (.read count into,s)
  | .writeAt h src n p buf buf₁ buf₂ =>
    match s.files h with
    | none => .error .blocked
    | some (_,f) => do
      let (count,disk) ← f.WriteAt s.disk src n p buf buf₁ buf₂
      return (.wrote count,{ s with disk := disk })
  | .read h into n buf =>
    match s.files h with
    | none => .error .blocked
    | some (i,f) => do
      let (count,into,f) ← f.Read s.disk into 0 n buf
      return (.read count into,{ s with files := Function.update s.files h (some (i,f)) })
  | .write h src n buf buf₁ buf₂ =>
    match s.files h with
    | none => .error .blocked
    | some (i,f) => do
      let (count,disk,f) ← f.Write s.disk src n buf buf₁ buf₂
      return (.wrote count,⟨disk,Function.update s.files h (some (i,f))⟩)
  | .seek h p =>
    match s.files h with
    | none => .error .blocked
    | some (i,f) =>
      return (.done,{ s with files := Function.update s.files h (some (i,f.Seek p)) })

def run (headerSector : ι → ℕ) (s : State ι H) :
    List (Op ι H) → Except Fault (List Output × State ι H)
  | [] => return ([],s)
  | op :: ops => do
    let (out,s) ← step headerSector s op
    let (outs,s) ← run headerSector s ops
    return (out :: outs,s)

/-- A disk with the given files: sound headers, no data sector used twice or as header. -/
structure WellFormed (headerSector : ι → ℕ) (d : Disk) : Prop where
  header : ∀ i, headerSector i < NumSectors ∧ Ok (d (headerSector i))
  notHeader : ∀ i j (a : ℕ), (a : ℤ) < numSectors (d (headerSector i)) →
    sector (d (headerSector i)) a ≠ headerSector j
  disjoint : ∀ i j, i ≠ j → ∀ a b : ℕ, (a : ℤ) < numSectors (d (headerSector i)) →
    (b : ℤ) < numSectors (d (headerSector j)) →
    sector (d (headerSector i)) a ≠ sector (d (headerSector j)) b

/-- The bytes of a file on the disk. -/
def content (d : Disk) (hdr : Buffer) : List Byte := bytes (byteAt d hdr) (numBytes hdr).toNat

variable {hdr src into : Buffer} {d d' : Disk} {n : ℤ} {p : ℕ}

@[simp] theorem length_bytes (g : Buffer) (n : ℕ) : (bytes g n).length = n := by
  simp [bytes]

theorem getElem_bytes (g : Buffer) (n : ℕ) {j : ℕ} (h : j < (bytes g n).length) :
    (bytes g n)[j] = g j := by
  simp [bytes]

@[simp] theorem length_content (d : Disk) (hdr : Buffer) :
    (content d hdr).length = (numBytes hdr).toNat := by
  simp [content]

/-- The length of a clipped transfer. -/
theorem transferred_toNat (h : 0 ≤ numBytes hdr) (n : ℤ) (p : ℕ) :
    (transferred (FileLength hdr) n p).toNat = min n.toNat ((numBytes hdr).toNat - p) := by
  rw [transferred_natCast,FileLength]
  omega

theorem transferred_nonneg (fileLength n : ℤ) (p : ℕ) : 0 ≤ transferred fileLength n p := by
  rw [transferred_natCast]
  omega

theorem readAt_content (h : 0 ≤ numBytes hdr) : readAt (content d hdr) n.toNat p =
    bytes (fun j => byteAt d hdr (p + j)) (transferred (FileLength hdr) n p).toNat := by
  apply List.ext_getElem
  · simp [readAt,transferred_toNat h]
  · intro j h₁ h₂
    simp [readAt,content,bytes]

theorem put_bytes (g : Buffer) (p c : ℕ) (into : Buffer) :
    put (bytes (fun j => g (p + j)) c) into = bcopy g p into 0 c := by
  funext j
  by_cases hj : j < c
  · rw [bcopy_in _ _ _ (by omega)]
    simp [put,bytes,List.getD,hj]
  · rw [bcopy_out _ _ _ (by omega)]
    simp [put,bytes,List.getD,hj]

/-- What was written to the disk is what is written to the array. -/
theorem content_written (h : 0 ≤ numBytes hdr)
    (hw : Written d d' hdr src p (transferred (FileLength hdr) n p).toNat) :
    content d' hdr = writeAt (content d hdr) (bytes src n.toNat) p := by
  have hc := transferred_toNat h n p
  apply List.ext_getElem
  · simp only [length_content,writeAt,List.length_append,List.length_take,List.length_drop,
      length_bytes]
    omega
  · intro x h₁ h₂
    have hx : (x : ℤ) < numBytes hdr := by
      rw [length_content] at h₁
      omega
    rw [length_content] at h₁
    simp only [content,getElem_bytes,hw.content x hx,hc,writeAt]
    by_cases hlo : x < p
    · rw [if_neg (by omega),List.getElem_append_left (by simp; omega),
        List.getElem_append_left (by simp; omega)]
      simp [bytes]
    · by_cases hhi : x < p + n.toNat
      · rw [if_pos (by omega),List.getElem_append_left (by simp; omega),
          List.getElem_append_right (by simp; omega)]
        simp [bytes,show min p (numBytes hdr).toNat = p by omega]
      · rw [if_neg (by omega),List.getElem_append_right (by simp; omega)]
        simp only [bytes,List.length_append,List.length_take,List.length_map,List.length_range,
          List.getElem_drop,List.getElem_map,List.getElem_range]
        congr 1
        omega

/-- The open files are at the positions of the model, with the headers the disk had. -/
structure Rel (headerSector : ι → ℕ) (d₀ : Disk) (s : State ι H) (a : Spec ι H) : Prop where
  headers : ∀ i, s.disk (headerSector i) = d₀ (headerSector i)
  contents : ∀ i, content s.disk (d₀ (headerSector i)) = a.contents i
  files : ∀ h, s.files h = (a.position h).map fun q => (q.1,⟨d₀ (headerSector q.1),q.2⟩)
  small : ∀ h i p, a.position h = some (i,p) → p < 2 ^ 31

variable {headerSector : ι → ℕ} {d₀ : Disk} {s s' : State ι H} {a a' : Spec ι H} {i : ι} {h : H}

omit [DecidableEq ι] in
/-- A write through an open file touches only the data sectors of its file. -/
theorem WellFormed.frame (hd : WellFormed headerSector d₀) {c : ℕ}
    (hw : Written d d' (d₀ (headerSector i)) src p c) :
    (∀ j, d' (headerSector j) = d (headerSector j)) ∧
      ∀ j, j ≠ i → ∀ b : ℕ, (b : ℤ) < numSectors (d₀ (headerSector j)) →
        d' (sector (d₀ (headerSector j)) b) = d (sector (d₀ (headerSector j)) b) := by
  constructor
  · intro j
    exact hw.frame _ fun b hb he => hd.notHeader i j b hb he.symm
  · intro j hj b hb
    exact hw.frame _ fun b' hb' he => hd.disjoint i j hj.symm b' b hb' hb he.symm

theorem content_congr (hdr : Buffer) (hok : Ok hdr)
    (he : ∀ b : ℕ, (b : ℤ) < numSectors hdr → d' (sector hdr b) = d (sector hdr b)) :
    content d' hdr = content d hdr := by
  apply List.map_congr_left
  intro x hx
  have hx : (x : ℤ) < numBytes hdr := by
    have := List.mem_range.mp hx
    omega
  rw [byteAt,byteAt,he _ (hok.covers hx)]

omit [DecidableEq H] in
/-- After a write the disk holds the new array and the old ones of the other files. -/
theorem Rel.written (hd : WellFormed headerSector d₀) (hr : Rel headerSector d₀ s a)
    (hw : Written s.disk d' (d₀ (headerSector i)) src p
      (transferred (FileLength (d₀ (headerSector i))) n p).toNat) (j : ι) :
    content d' (d₀ (headerSector j)) = Function.update a.contents i
      (writeAt (a.contents i) (bytes src n.toNat) p) j := by
  by_cases hj : j = i
  · subst hj
    rw [content_written (hd.header j).2.nonneg hw,hr.contents,Function.update_self]
  · rw [content_congr _ (hd.header j).2 ((hd.frame hw).2 j hj),hr.contents,
      Function.update_of_ne hj]

omit [DecidableEq ι] [DecidableEq H] in
theorem Rel.file_eq (hr : Rel headerSector d₀ s a) (hp : a.position h = some (i,p)) :
    s.files h = some (i,⟨d₀ (headerSector i),p⟩) := by
  rw [hr.files,hp]
  rfl

omit [DecidableEq ι] in
/-- Moving one open file. -/
theorem Rel.move (hr : Rel headerSector d₀ s a) (h : H) (i : ι) {q : ℕ} (hq : q < 2 ^ 31)
    {d' : Disk} {contents : ι → List Byte} (hh : ∀ i, d' (headerSector i) = d₀ (headerSector i))
    (hc : ∀ i, content d' (d₀ (headerSector i)) = contents i) :
    Rel headerSector d₀
      ⟨d',Function.update s.files h (some (i,⟨d₀ (headerSector i),q⟩))⟩
      ⟨contents,Function.update a.position h (some (i,q))⟩ := by
  refine ⟨hh,hc,fun h' => ?_,fun h' i' r hp => ?_⟩
  · by_cases he : h' = h
    · simp [he]
    · simpa [he] using hr.files h'
  · by_cases he : h' = h
    · simp only [he,Function.update_self,Option.some.injEq,Prod.mk.injEq] at hp
      omega
    · simp only [Function.update_of_ne he] at hp
      exact hr.small h' i' r hp

/-- The count the array model returns is the count of the code. -/
theorem count_eq (hok : 0 ≤ numBytes hdr) (n : ℤ) (p : ℕ) :
    ((min n.toNat ((numBytes hdr).toNat - p) : ℕ) : ℤ) = transferred (FileLength hdr) n p := by
  have h₁ := transferred_toNat hok n p
  have h₂ := transferred_nonneg (FileLength hdr) n p
  omega

omit [DecidableEq ι] [DecidableEq H] in
/-- `ReadAt` delivers what the array holds. -/
theorem Rel.readAt_eq (hd : WellFormed headerSector d₀) (hr : Rel headerSector d₀ s a)
    (i : ι) (q : ℤ) (into buf : Buffer) (hl : Legal n p) :
    OpenFile.ReadAt ⟨d₀ (headerSector i),q⟩ s.disk into 0 n p buf =
      .ok (((readAt (a.contents i) n.toNat p).length : ℤ),
        put (readAt (a.contents i) n.toNat p) into) := by
  have hok := (hd.header i).2
  have hread := ReadAt_ok (f := ⟨d₀ (headerSector i),q⟩) hok s.disk into 0 buf hl.2.2
  rw [hread,← hr.contents,readAt_content hok.nonneg,put_bytes,length_bytes,
    transferred_toNat hok.nonneg,count_eq hok.nonneg]

omit [DecidableEq H] in
/-- `WriteAt` does to the disk what the array model does to the array. -/
theorem Rel.writeAt_eq (hd : WellFormed headerSector d₀) (hr : Rel headerSector d₀ s a)
    (i : ι) (q : ℤ) (src buf buf₁ buf₂ : Buffer) (hl : Legal n p) :
    ∃ d', OpenFile.WriteAt ⟨d₀ (headerSector i),q⟩ s.disk src n p buf buf₁ buf₂ =
        .ok ((((bytes src n.toNat).take ((a.contents i).length - p)).length : ℤ),d') ∧
      (∀ j, d' (headerSector j) = d₀ (headerSector j)) ∧
      ∀ j, content d' (d₀ (headerSector j)) = Function.update a.contents i
        (writeAt (a.contents i) (bytes src n.toNat) p) j := by
  have hok := (hd.header i).2
  obtain ⟨⟨c,d'⟩,hwrite,hc,hw⟩ := WriteAt_ok (f := ⟨d₀ (headerSector i),q⟩) hok s.disk src
    buf buf₁ buf₂ hl.2.2
  refine ⟨d',?_,fun j => ?_,hr.written hd hw⟩
  · have hlen : (((bytes src n.toNat).take ((a.contents i).length - p)).length : ℤ) = c := by
      rw [← hr.contents,List.length_take,length_bytes,length_content,Nat.min_comm,
        count_eq hok.nonneg]
      exact hc.symm
    rw [hwrite,hlen]
  · rw [← hr.headers]
    exact (hd.frame hw).1 j

/-- A position moves by the bytes transferred without leaving the range of `int`. -/
theorem Legal.advance {q c : ℕ} (hl : Legal n q) (hc : c ≤ n.toNat) :
    q + c < 2 ^ 31 ∧ wrap ((q : ℤ) + c) = ((q + c : ℕ) : ℤ) := by
  obtain ⟨_,h₂,h₃⟩ := hl
  have hlt : q + c < 2 ^ 31 := by omega
  refine ⟨hlt,?_⟩
  rw [wrap_of_range (by omega) (by omega)]
  omega

theorem step_refines (hd : WellFormed headerSector d₀) (hr : Rel headerSector d₀ s a)
    {op : Op ι H} {out : Output} (hs : a.step op = some (out,a')) :
    ∃ s', step headerSector s op = .ok (out,s') ∧ Rel headerSector d₀ s' a' := by
  cases op with
  | openFile h i =>
    cases hs
    have hlt : (0 : ℤ) ≤ headerSector i ∧ (headerSector i : ℤ) < NumSectors := by
      have := (hd.header i).1
      omega
    have hnew : OpenFile.new s.disk (headerSector i) = .ok ⟨d₀ (headerSector i),0⟩ := by
      simp only [OpenFile.new,FetchFrom,Disk.ReadSector,check_of hlt,Int.toNat_natCast,
        hr.headers]
      rfl
    exact ⟨_,bind_ok.mpr ⟨_,hnew,rfl⟩,hr.move h i (q := 0) (by norm_num) hr.headers hr.contents⟩
  | readAt h into n p buf =>
    obtain ⟨⟨i,q⟩,hq,hs⟩ := Option.bind_eq_some_iff.mp hs
    obtain ⟨hl,hs⟩ := Option.ite_none_right_eq_some.mp hs
    obtain ⟨p,rfl⟩ := Int.eq_ofNat_of_zero_le hl.1
    cases hs
    refine ⟨s,?_,hr⟩
    simp only [step,hr.file_eq hq]
    exact bind_ok.mpr ⟨_,hr.readAt_eq hd i q into buf hl,rfl⟩
  | writeAt h src n p buf buf₁ buf₂ =>
    obtain ⟨⟨i,q⟩,hq,hs⟩ := Option.bind_eq_some_iff.mp hs
    obtain ⟨hl,hs⟩ := Option.ite_none_right_eq_some.mp hs
    obtain ⟨p,rfl⟩ := Int.eq_ofNat_of_zero_le hl.1
    obtain ⟨d',hwrite,hheaders,hcontents⟩ := hr.writeAt_eq hd i q src buf buf₁ buf₂ hl
    cases hs
    refine ⟨{ s with disk := d' },?_,hheaders,hcontents,hr.files,hr.small⟩
    simp only [step,hr.file_eq hq]
    exact bind_ok.mpr ⟨_,hwrite,rfl⟩
  | read h into n buf =>
    obtain ⟨⟨i,q⟩,hq,hs⟩ := Option.bind_eq_some_iff.mp hs
    obtain ⟨hl,hs⟩ := Option.ite_none_right_eq_some.mp hs
    cases hs
    have hmove := hl.advance (c := (readAt (a.contents i) n.toNat q).length)
      (by simp [readAt])
    refine ⟨_,?_,hr.move h i hmove.1 hr.headers hr.contents⟩
    simp only [step,hr.file_eq hq]
    refine bind_ok.mpr ⟨_,bind_ok.mpr ⟨_,hr.readAt_eq hd i q into buf hl,rfl⟩,?_⟩
    simp only [hmove.2]
    rfl
  | write h src n buf buf₁ buf₂ =>
    obtain ⟨⟨i,q⟩,hq,hs⟩ := Option.bind_eq_some_iff.mp hs
    obtain ⟨hl,hs⟩ := Option.ite_none_right_eq_some.mp hs
    obtain ⟨d',hwrite,hheaders,hcontents⟩ := hr.writeAt_eq hd i q src buf buf₁ buf₂ hl
    cases hs
    have hmove := hl.advance
      (c := ((bytes src n.toNat).take ((a.contents i).length - q)).length)
      (by simp)
    refine ⟨_,?_,hr.move h i hmove.1 hheaders hcontents⟩
    simp only [step,hr.file_eq hq]
    refine bind_ok.mpr ⟨_,bind_ok.mpr ⟨_,hwrite,rfl⟩,?_⟩
    simp only [hmove.2]
    rfl
  | seek h p =>
    obtain ⟨⟨i,q⟩,hq,hs⟩ := Option.bind_eq_some_iff.mp hs
    obtain ⟨hl,hs⟩ := Option.ite_none_right_eq_some.mp hs
    obtain ⟨p,rfl⟩ := Int.eq_ofNat_of_zero_le hl.1
    have hlt : p < 2 ^ 31 := by
      have := hl.2.1
      omega
    cases hs
    refine ⟨_,?_,hr.move h i hlt hr.headers hr.contents⟩
    simp only [step,hr.file_eq hq]
    rfl

theorem run_refines (hd : WellFormed headerSector d₀) (hr : Rel headerSector d₀ s a)
    {ops : List (Op ι H)} {outs : List Output} (hs : a.run ops = some (outs,a')) :
    ∃ s', run headerSector s ops = .ok (outs,s') ∧ Rel headerSector d₀ s' a' := by
  induction ops generalizing s a outs with
  | nil =>
    cases hs
    exact ⟨s,rfl,hr⟩
  | cons op ops ih =>
    obtain ⟨⟨out,a₁⟩,h₁,hs⟩ := Option.bind_eq_some_iff.mp hs
    obtain ⟨⟨outs,a₂⟩,h₂,hs⟩ := Option.bind_eq_some_iff.mp hs
    cases hs
    obtain ⟨s₁,hstep,hr₁⟩ := step_refines hd hr h₁
    obtain ⟨s₂,hrun,hr₂⟩ := ih hr₁ h₂
    exact ⟨s₂,bind_ok.mpr ⟨_,hstep,bind_ok.mpr ⟨_,hrun,rfl⟩⟩,hr₂⟩

/-- No open file yet, on a given disk. -/
def start (d : Disk) : State ι H := ⟨d,fun _ => none⟩

def Spec.start (headerSector : ι → ℕ) (d : Disk) : Spec ι H :=
  ⟨fun i => content d (d (headerSector i)),fun _ => none⟩

/-- A `WriteAt` changes only bytes of its range and no sector of another file or header. -/
def WritesOnly (headerSector : ι → ℕ) (d₀ : Disk) (s : State ι H) : Prop :=
  ∀ h i f, s.files h = some (i,f) → ∀ (src : Buffer) (n : ℤ) (p : ℕ) (buf buf₁ buf₂ : Buffer)
    (c : ℤ) (d' : Disk), Legal n p → f.WriteAt s.disk src n p buf buf₁ buf₂ = .ok (c,d') →
    (∀ x : ℕ, (x : ℤ) < numBytes (d₀ (headerSector i)) → ¬ ((p : ℤ) ≤ x ∧ (x : ℤ) < p + c) →
      byteAt d' (d₀ (headerSector i)) x = byteAt s.disk (d₀ (headerSector i)) x) ∧
    (∀ j, d' (headerSector j) = s.disk (headerSector j)) ∧
    ∀ j, j ≠ i → ∀ b : ℕ, (b : ℤ) < numSectors (d₀ (headerSector j)) →
      d' (sector (d₀ (headerSector j)) b) = s.disk (sector (d₀ (headerSector j)) b)

omit [DecidableEq H] [DecidableEq ι] in
theorem Rel.writesOnly (hd : WellFormed headerSector d₀) (hr : Rel headerSector d₀ s a) :
    WritesOnly headerSector d₀ s := by
  intro h i f hf src n p buf buf₁ buf₂ c d' hl hwrite
  rw [hr.files] at hf
  have hhdr : f.hdr = d₀ (headerSector i) := by
    obtain ⟨q,_,he⟩ := Option.map_eq_some_iff.mp hf
    cases he
    rfl
  rw [← hhdr]
  obtain ⟨⟨c',d''⟩,hok,hc,hw⟩ := WriteAt_ok (f := f) (hhdr ▸ (hd.header i).2) s.disk
    src buf buf₁ buf₂ hl.2.2
  cases hok.symm.trans hwrite
  have hpos := transferred_nonneg (FileLength f.hdr) n p
  simp only at hc hw
  have hframe := hd.frame (hhdr ▸ hw)
  refine ⟨fun x hx hout => ?_,hframe.1,hframe.2⟩
  rw [hw.content x hx,if_neg (by omega)]

/-- The open files of a well-formed disk behave as byte arrays of fixed length: whatever
calls the array model accepts, the code returns the same counts and bytes, the disk holds
the arrays of the model, and a write changes nothing but its range of its file. -/
theorem openFile_refines_arrays (headerSector : ι → ℕ) (d : Disk)
    (hd : WellFormed headerSector d) (ops : List (Op ι H)) (outs : List Output) (a : Spec ι H)
    (hs : (Spec.start headerSector d).run ops = some (outs,a)) :
    ∃ s, run headerSector (start d) ops = .ok (outs,s) ∧
      (∀ i, content s.disk (d (headerSector i)) = a.contents i) ∧
      (∀ i, s.disk (headerSector i) = d (headerSector i)) ∧ WritesOnly headerSector d s := by
  have hstart : Rel headerSector d (start d) (Spec.start headerSector d : Spec ι H) := by
    refine ⟨fun _ => rfl,fun _ => rfl,fun _ => rfl,?_⟩
    intro h i p hp
    cases hp
  obtain ⟨s,hrun,hr⟩ := run_refines hd hstart hs
  exact ⟨s,hrun,hr.contents,hr.headers,hr.writesOnly hd⟩

/-- A file of 130 bytes in sectors 6 and 7, with its header in sector 5. -/
def exampleDisk : Disk := fun s =>
  if s = 5 then setInt (setInt (setInt (setInt (fun _ => 0#8) 0 130) 4 2) 8 6) 12 7
  else fun _ => 0#8

theorem exampleDisk_wellFormed : WellFormed (fun _ : Unit => 5) exampleDisk := by
  have hn : numSectors (exampleDisk 5) = 2 := by decide
  have hlt : ∀ a : ℕ, (a : ℤ) < numSectors (exampleDisk 5) → a = 0 ∨ a = 1 := by
    intro a ha
    omega
  have h₀ : dataSectors (exampleDisk 5) 0 = 6 := by decide
  have h₁ : dataSectors (exampleDisk 5) 1 = 7 := by decide
  refine ⟨fun _ => ⟨by decide,by decide,by decide,by decide,?_,?_⟩,?_,?_⟩
  · intro i hi
    rcases hlt i hi with rfl | rfl <;> simp [h₀,h₁]
  · intro i j hi hj he
    rcases hlt i hi with rfl | rfl <;> rcases hlt j hj with rfl | rfl <;> simp_all
  · intro _ _ a ha
    rcases hlt a ha with rfl | rfl <;> simp [sector,h₀,h₁]
  · intro i j hij
    exact absurd (Subsingleton.elim i j) hij

/-- A write over the sector boundary and past the end is clipped to four bytes. -/
theorem openFile_refines_arrays_clipped :
    ∃ outs s, run (fun _ : Unit => 5) (start exampleDisk)
        [.openFile () (),.seek () 126,.write () (fun _ => 7#8) 9 (fun _ => 1#8) (fun _ => 2#8)
          (fun _ => 3#8),.readAt () (fun _ => 0#8) 3 125 (fun _ => 4#8)] = .ok (outs,s) ∧
      content s.disk (exampleDisk 5) = List.replicate 126 0#8 ++ List.replicate 4 7#8 := by
  obtain ⟨s,hrun,hcontent,_,_⟩ := openFile_refines_arrays (fun _ : Unit => 5) exampleDisk
    exampleDisk_wellFormed
    [.openFile () (),.seek () 126,.write () (fun _ => 7#8) 9 (fun _ => 1#8) (fun _ => 2#8)
      (fun _ => 3#8),.readAt () (fun _ => 0#8) 3 125 (fun _ => 4#8)] _ _ rfl
  exact ⟨_,s,hrun,(hcontent ()).trans (by decide +kernel)⟩

end FileArray
end NachOS
