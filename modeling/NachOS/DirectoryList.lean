import NachOS.DirectoryMap

/-! The names that `Directory::List` prints (filesys/directory.cc).  `Add` copies nine
characters into a field of ten bytes and leaves the last one as it is, so whether a name of nine
characters is terminated depends on the memory that the table was allocated in. -/
namespace NachOS

open StateMachine Memory FileHeader OpenFile

namespace Directory

/-- What `%s` prints of a field that has `n` more bytes from offset `i` on: a string that has no
zero byte there is read past the field. -/
def printString (t : Buffer) (i : ℕ) : ℕ → Except Fault (List Byte)
  | 0 => .error .undefined
  | n + 1 =>
    if t i = 0#8 then return []
    else do
      let rest ← printString t (i + 1) n
      return t i :: rest

/-- The loop of `List` from entry `i` on, with `n` entries to go. -/
def list (t : Buffer) (i : ℕ) : ℕ → Except Fault (List Byte)
  | 0 => return []
  | n + 1 =>
    if inUse t i then do
      let name ← printString t (nameOffset i) (FileNameMaxLen + 1)
      let rest ← list t (i + 1) n
      return name ++ 10#8 :: rest
    else
      list t (i + 1) n

/-- `Directory::List`: the bytes that it prints. -/
def ListFiles (dir : Directory) : Except Fault (List Byte) := list dir.table 0 dir.tableSize

/-- The name of entry `i` has a zero byte in its field. -/
def Terminated (t : Buffer) (i : ℕ) : Prop := ∃ k ≤ FileNameMaxLen, t (nameOffset i + k) = 0#8

/-- The last byte of the name of entry `i`. -/
def lastByte (i : ℕ) : ℕ := nameOffset i + FileNameMaxLen

/-- The names of the entries in use among `i` to `i + n - 1`. -/
def names (t : Buffer) (i n : ℕ) : List (List Byte) :=
  (List.range' i n).filterMap fun j => (entry t j).map Prod.snd

variable {t name : Buffer} {i j n size : ℕ} {junk : Buffer} {file : OpenFile} {s : Store}
  {m : Model}

theorem printString_of_zero (h : ∃ k ≤ n, t (i + k) = 0#8) :
    printString t i (n + 1) = .ok (cString t i n) := by
  induction n generalizing i with
  | zero =>
    obtain ⟨k,hk,hz⟩ := h
    obtain rfl : k = 0 := by omega
    exact if_pos hz
  | succ n ih =>
    by_cases hz : t i = 0#8
    · rw [printString,cString,if_pos hz,if_pos hz]
      rfl
    · obtain ⟨k,hk,hzero⟩ := h
      have hpos : k ≠ 0 := fun he => hz (by rw [he] at hzero; exact hzero)
      have hrest := ih ⟨k - 1,by omega,by rw [show i + 1 + (k - 1) = i + k by omega]; exact hzero⟩
      rw [printString,if_neg hz,cString,if_neg hz]
      exact bind_ok.mpr ⟨_,hrest,rfl⟩

theorem length_cString_lt (h : ∃ k < n, t (i + k) = 0#8) : (cString t i n).length < n := by
  induction n generalizing i with
  | zero =>
    obtain ⟨k,hk,_⟩ := h
    omega
  | succ n ih =>
    by_cases hz : t i = 0#8
    · simp [cString,hz]
    · obtain ⟨k,hk,hzero⟩ := h
      have hpos : k ≠ 0 := fun he => hz (by rw [he] at hzero; exact hzero)
      have hrest := ih ⟨k - 1,by omega,by rw [show i + 1 + (k - 1) = i + k by omega]; exact hzero⟩
      rw [cString,if_neg hz,List.length_cons]
      omega

/-- `List` prints the names of terminated entries. -/
theorem list_of_terminated
    (h : ∀ j, i ≤ j → j < i + n → inUse t j = true → Terminated t j) :
    list t i n = .ok ((names t i n).flatMap (· ++ [10#8])) := by
  induction n generalizing i with
  | zero => rfl
  | succ n ih =>
    have hrest := ih (i := i + 1) fun j h₁ h₂ => h j (by omega) (by omega)
    by_cases huse : inUse t i = true
    · have hname := printString_of_zero (h i le_rfl (by omega) huse)
      rw [list,if_pos huse,hname,hrest]
      simp [names,List.range'_succ,entry,huse,bind,Except.bind,pure,Except.pure]
    · rw [list,if_neg huse,hrest]
      simp [names,List.range'_succ,entry,huse]

/-- A name of nine characters is terminated by the last byte only. -/
theorem Terminated.lastByte_zero (h : Terminated t i)
    (hlen : (cString t (nameOffset i) FileNameMaxLen).length = FileNameMaxLen) :
    t (lastByte i) = 0#8 := by
  obtain ⟨k,hk,hz⟩ := h
  rcases hk.lt_or_eq with hlt | rfl
  · have hshort := length_cString_lt ⟨k,hlt,hz⟩
    omega
  · exact hz

/-! No operation writes the last byte, except by copying the table. -/

theorem freeEntries_lastByte (t : Buffer) (n i : ℕ) :
    freeEntries t n (lastByte i) = t (lastByte i) := by
  induction n with
  | zero => rfl
  | succ n ih =>
    rw [freeEntries,Function.update_of_ne,ih]
    simp only [lastByte,nameOffset,entrySize,FileNameMaxLen]
    omega

theorem add_lastByte (t name : Buffer) (newSector : ℤ) (i n j : ℕ) :
    (add t name newSector i n).2 (lastByte j) = t (lastByte j) := by
  induction n generalizing i with
  | zero => rfl
  | succ n ih =>
    rw [add]
    split
    · exact ih (i + 1)
    · simp only [lastByte,nameOffset,entrySize,FileNameMaxLen]
      rw [setInt_out _ _ (by omega),strncpy_out _ _ _ _ _ (by omega),
        Function.update_of_ne (by omega)]

theorem Add_lastByte (dir : Directory) (name : Buffer) (newSector : ℤ) (j : ℕ) :
    (dir.Add name newSector).2.table (lastByte j) = dir.table (lastByte j) := by
  unfold Add
  split
  · rfl
  · exact add_lastByte dir.table name newSector 0 dir.tableSize j

theorem Remove_lastByte (dir : Directory) (name : Buffer) (j : ℕ) :
    (dir.Remove name).2.table (lastByte j) = dir.table (lastByte j) := by
  unfold Remove
  simp only
  split
  · rfl
  · refine Function.update_of_ne ?_ _ _
    simp only [lastByte,nameOffset,entrySize,FileNameMaxLen]
    omega

theorem lastByte_lt (hi : i < size) : lastByte i < size * entrySize := by
  simp only [lastByte,nameOffset,entrySize,FileNameMaxLen]
  omega

/-- The last bytes are those of the memory that the table was allocated in, also in the table
that was written back. -/
structure KeepsLast (file : OpenFile) (size : ℕ) (junk : Buffer) (s : Store) (m : Model) :
    Prop where
  refines : Refines file size s m
  last : ∀ i < size, s.dir.table (lastByte i) = junk (lastByte i)
  saved : m.saved ≠ none → ∀ i < size, byteAt s.disk file.hdr (lastByte i) = junk (lastByte i)

theorem keepsLast_new (junk : Buffer) (d : Disk) :
    KeepsLast file size junk ⟨new size junk,d⟩ ⟨∅,none⟩ where
  refines := refines_new junk d
  last i _ := freeEntries_lastByte junk size i
  saved h := absurd rfl h

/-- A fetched table has the last bytes of the table on disk. -/
theorem KeepsLast.fetched {dir dir' : Directory} {buf : Buffer}
    (h : KeepsLast file size junk s m) (hsaved : m.saved ≠ none) (hfile : HasSpace file size)
    (hdir : dir.tableSize = size) (hfetch : dir.FetchFrom file s.disk buf = .ok dir') :
    ∀ i < size, dir'.table (lastByte i) = junk (lastByte i) := by
  intro i hi
  obtain ⟨t,hok,hbytes⟩ := FetchFrom_bytes dir hfile.1 s.disk buf (by rw [hdir]; exact hfile.2)
  cases hfetch.symm.trans hok
  rw [hdir] at hbytes
  exact (hbytes _ (lastByte_lt hi)).trans (h.saved hsaved i hi)

theorem KeepsLast.step {op : Operation} {answer : Answer} {m' : Model}
    (h : KeepsLast file size junk s m) (hfile : op.onDisk = true → HasSpace file size)
    (hm : m.perform size op = some (answer,m')) :
    ∃ s', perform file s op = .ok (answer,s') ∧ KeepsLast file size junk s' m' := by
  obtain ⟨s',hs,hr⟩ := h.refines.step hfile hm
  cases op with
  | find name =>
    cases hm
    obtain ⟨_,rfl⟩ := Prod.mk.inj (Except.ok.inj hs)
    exact ⟨s,hs,h⟩
  | add name newSector =>
    cases hm
    obtain ⟨_,rfl⟩ := Prod.mk.inj (Except.ok.inj hs)
    exact ⟨_,hs,hr,fun i hi => (Add_lastByte s.dir name _ i).trans (h.last i hi),h.saved⟩
  | remove name =>
    cases hm
    obtain ⟨_,rfl⟩ := Prod.mk.inj (Except.ok.inj hs)
    exact ⟨_,hs,hr,fun i hi => (Remove_lastByte s.dir name i).trans (h.last i hi),h.saved⟩
  | writeBack buf buf₁ buf₂ =>
    cases hm
    obtain ⟨hok,hlen⟩ := hfile rfl
    obtain ⟨d',hwrite,_,hbytes⟩ := WriteBack_bytes s.dir hok s.disk buf buf₁ buf₂
      (by rw [h.refines.tableSize]; exact hlen)
    obtain ⟨d,hwrite',hs'⟩ := bind_ok.mp hs
    cases hwrite.symm.trans hwrite'
    obtain ⟨_,rfl⟩ := Prod.mk.inj (Except.ok.inj hs')
    refine ⟨_,hs,hr,h.last,fun _ i hi => ?_⟩
    rw [h.refines.tableSize] at hbytes
    exact (hbytes _ (lastByte_lt hi)).trans (h.last i hi)
  | fetchFrom buf =>
    obtain ⟨map,hsaved,hm⟩ := Option.map_eq_some_iff.mp hm
    cases hm
    have hany : m.saved ≠ none := by rw [hsaved]; exact nofun
    obtain ⟨dir,hfetch,hs'⟩ := bind_ok.mp hs
    obtain ⟨_,rfl⟩ := Prod.mk.inj (Except.ok.inj hs')
    have hlast := h.fetched hany (hfile rfl) h.refines.tableSize hfetch
    exact ⟨_,hs,hr,hlast,fun _ => h.saved hany⟩
  | reopen other buf =>
    obtain ⟨map,hsaved,hm⟩ := Option.map_eq_some_iff.mp hm
    cases hm
    have hany : m.saved ≠ none := by rw [hsaved]; exact nofun
    obtain ⟨dir,hfetch,hs'⟩ := bind_ok.mp hs
    obtain ⟨_,rfl⟩ := Prod.mk.inj (Except.ok.inj hs')
    have hsize : (new s.dir.tableSize other).tableSize = size := h.refines.tableSize
    have hlast := h.fetched hany (hfile rfl) hsize hfetch
    exact ⟨_,hs,hr,hlast,fun _ => h.saved hany⟩

theorem performAll_keepsLast (junk : Buffer) (d : Disk) {ops : List Operation}
    {answers : List Answer} (hfile : (∃ op ∈ ops, op.onDisk = true) → HasSpace file size)
    (hm : (⟨∅,none⟩ : Model).performAll size ops = some (answers,m)) :
    ∃ s, performAll file ⟨new size junk,d⟩ ops = .ok (answers,s) ∧
      KeepsLast file size junk s m :=
  performAll_of_step (fun hk hd hop => hk.step hd hop) (keepsLast_new junk d) hfile hm

/-! Each name is in the list once. -/

theorem mem_names {k : List Byte} :
    k ∈ names t i n ↔ ∃ j, (i ≤ j ∧ j < i + n) ∧ ∃ v, entry t j = some (v,k) := by
  simp [names,List.mem_range'_1]

theorem Refines.mem_names (h : Refines file size s m) (k : List Byte) :
    k ∈ names s.dir.table 0 size ↔ k ∈ m.map := by
  rw [Directory.mem_names,h.map.mem_iff]
  simp

theorem Refines.nodup_names (h : Refines file size s m) : (names s.dir.table 0 size).Nodup := by
  unfold names
  rw [List.nodup_iff_pairwise_ne,List.pairwise_filterMap]
  have hlt : (List.range' 0 size).Pairwise (· < ·) := List.pairwise_lt_range'
  refine hlt.imp_of_mem fun {i j} hi hj hlt k hk l hl he => ?_
  subst he
  obtain ⟨⟨v,_⟩,hv,rfl⟩ := Option.map_eq_some_iff.mp hk
  obtain ⟨⟨w,_⟩,hw,rfl⟩ := Option.map_eq_some_iff.mp hl
  rw [List.mem_range'_1] at hi hj
  exact hlt.ne (h.map.distinct (by omega) (by omega) hv hw)

/-! Names of nine characters for all entries. -/

/-- The nine characters of the name with number `i`. -/
def nineCharacters (i : ℕ) : List Byte :=
  (List.range FileNameMaxLen).map fun k => BitVec.ofNat 8 (i / 16 ^ k % 16 + 1)

theorem toNat_character (a : ℕ) : (BitVec.ofNat 8 (a % 16 + 1)).toNat = a % 16 + 1 := by
  rw [BitVec.toNat_ofNat]
  omega

theorem key_nineCharacters (i : ℕ) : key (ofList (nineCharacters i)) = nineCharacters i := by
  have hspells : Spells (ofList (nineCharacters i)) (nineCharacters i) := by
    refine ⟨fun k _ => rfl,fun hmem => ?_⟩
    obtain ⟨k,_,hk⟩ := List.mem_map.mp hmem
    have hnat := congrArg BitVec.toNat hk
    rw [toNat_character,BitVec.toNat_ofNat] at hnat
    omega
  exact hspells.cString_eq (by simp [nineCharacters])

theorem mod_pow_eq_of_digits (h : ∀ k < n, i / 16 ^ k % 16 = j / 16 ^ k % 16) :
    i % 16 ^ n = j % 16 ^ n := by
  induction n with
  | zero => rw [pow_zero,Nat.mod_one,Nat.mod_one]
  | succ n ih =>
    rw [Nat.mod_pow_succ,Nat.mod_pow_succ,ih fun k hk => h k (by omega),h n (by omega)]

theorem nineCharacters_injective (hi : i < 2 ^ 31) (hj : j < 2 ^ 31)
    (h : nineCharacters i = nineCharacters j) : i = j := by
  have hdigits : i % 16 ^ FileNameMaxLen = j % 16 ^ FileNameMaxLen := by
    refine mod_pow_eq_of_digits fun k hk => ?_
    have hnat := congrArg BitVec.toNat (List.map_inj_left.mp h k (List.mem_range.mpr hk))
    rw [toNat_character,toNat_character] at hnat
    omega
  rwa [Nat.mod_eq_of_lt (by simp only [FileNameMaxLen]; omega),
    Nat.mod_eq_of_lt (by simp only [FileNameMaxLen]; omega)] at hdigits

/-- One name for each entry from `i` on. -/
def fill (i n : ℕ) : List Operation :=
  (List.range' i n).map fun k => .add (ofList (nineCharacters k)) 0#32

theorem fill_onDisk (i n : ℕ) : ¬ ∃ op ∈ fill i n, op.onDisk = true := by
  rintro ⟨op,hop,hdisk⟩
  obtain ⟨k,_,rfl⟩ := List.mem_map.mp hop
  cases hdisk

theorem performAll_cons {op : Operation} {ops : List Operation} {answer : Answer}
    {answers : List Answer} {m₁ m₂ : Model} (hop : m.perform size op = some (answer,m₁))
    (hops : m₁.performAll size ops = some (answers,m₂)) :
    m.performAll size (op :: ops) = some (answer :: answers,m₂) :=
  Option.bind_eq_some_iff.mpr ⟨_,hop,Option.bind_eq_some_iff.mpr ⟨_,hops,rfl⟩⟩

/-- Every name finds a free entry. -/
theorem performAll_fill (hsize : size < 2 ^ 31) (hin : i + n ≤ size)
    (hcard : m.map.keys.card = i) (hkeys : ∀ k ∈ m.map, ∃ j < i, k = nineCharacters j) :
    ∃ answers m', m.performAll size (fill i n) = some (answers,m') ∧
      m'.map.keys.card = i + n ∧ ∀ k ∈ m'.map, ∃ j < i + n, k = nineCharacters j := by
  induction n generalizing i m with
  | zero => exact ⟨[],m,rfl,hcard,hkeys⟩
  | succ n ih =>
    have hnew : nineCharacters i ∉ m.map := by
      intro hmem
      obtain ⟨j,hj,he⟩ := hkeys _ hmem
      have := nineCharacters_injective (by omega) (by omega) he
      omega
    have hroom : ¬ (nineCharacters i ∈ m.map ∨ m.map.keys.card = size) := by
      rintro (hmem | hfull)
      · exact hnew hmem
      · omega
    let m₁ : Model := { m with map := m.map.insert (nineCharacters i) 0 }
    have hop : m.perform size (.add (ofList (nineCharacters i)) 0#32) =
        some (.success true,m₁) := by
      rw [Model.perform,key_nineCharacters,SlotMap.add,if_neg hroom]
      rfl
    have hinsert : m₁.map.keys = insert (nineCharacters i) m.map.keys := by
      ext k
      rw [Finset.mem_insert,Finmap.mem_keys,Finmap.mem_keys]
      exact Finmap.mem_insert
    have hcard₁ : m₁.map.keys.card = i + 1 := by
      rw [hinsert,Finset.card_insert_of_notMem (mt Finmap.mem_keys.mp hnew),hcard]
    have hkeys₁ : ∀ k ∈ m₁.map, ∃ j < i + 1, k = nineCharacters j := by
      intro k hk
      rcases Finmap.mem_insert.mp hk with rfl | hk
      · exact ⟨i,by omega,rfl⟩
      · obtain ⟨j,hj,he⟩ := hkeys k hk
        exact ⟨j,by omega,he⟩
    obtain ⟨answers,m',hrun,hm'⟩ := ih (by omega) hcard₁ hkeys₁
    rw [show i + 1 + n = i + (n + 1) by omega] at hm'
    exact ⟨_,m',performAll_cons hop hrun,hm'⟩

/-- Where all entries are filled, the last byte ends every name. -/
theorem KeepsLast.lastByte_zero (h : KeepsLast file size junk s m)
    (hcard : m.map.keys.card = size) (hkeys : ∀ k ∈ m.map, k.length = FileNameMaxLen)
    (hterm : ∀ i < size, inUse s.dir.table i = true → Terminated s.dir.table i) (hi : i < size) :
    junk (lastByte i) = 0#8 := by
  obtain ⟨⟨v,k⟩,he⟩ := Option.ne_none_iff_exists'.mp (h.refines.map.full_iff.mp hcard i hi)
  have hlen := hkeys k (h.refines.map.mem_iff.mpr ⟨i,hi,v,he⟩)
  obtain ⟨huse,_,hname⟩ := entry_eq_some.mp he
  rw [← hname] at hlen
  exact (h.last i hi).symm.trans ((hterm i hi huse).lastByte_zero hlen)

/-- The names in a directory are terminated and listed, whatever the operations, just if the
memory of the table has a zero byte at the end of every name field. -/
theorem names_terminated_iff (size : ℕ) (hsize : size < 2 ^ 31) (junk : Buffer)
    (file : OpenFile) (d : Disk) :
    (∀ (ops : List Operation) (answers : List Answer) (m : Model),
      ((∃ op ∈ ops, op.onDisk = true) → HasSpace file size) →
      (⟨∅,none⟩ : Model).performAll size ops = some (answers,m) →
      ∃ s, performAll file ⟨new size junk,d⟩ ops = .ok (answers,s) ∧
        (∀ i < size, inUse s.dir.table i = true → Terminated s.dir.table i) ∧
        ∃ names : List (List Byte), s.dir.ListFiles = .ok (names.flatMap (· ++ [10#8])) ∧
          names.Nodup ∧ ∀ k, k ∈ names ↔ k ∈ m.map) ↔
    ∀ i < size, junk (lastByte i) = 0#8 := by
  constructor
  · intro h i hi
    obtain ⟨answers,m,hm,hcard,hkeys⟩ := performAll_fill (m := ⟨∅,none⟩) (i := 0) (n := size)
      hsize (by omega) rfl nofun
    have hfile : (∃ op ∈ fill 0 size, op.onDisk = true) → HasSpace file size :=
      fun hany => absurd hany (fill_onDisk 0 size)
    obtain ⟨s,hs,hterm,_⟩ := h _ _ _ hfile hm
    obtain ⟨s',hs',hkeeps⟩ := performAll_keepsLast junk d hfile hm
    cases hs.symm.trans hs'
    rw [Nat.zero_add] at hcard
    refine hkeeps.lastByte_zero hcard (fun k hk => ?_) hterm hi
    obtain ⟨j,_,rfl⟩ := hkeys k hk
    simp [nineCharacters]
  · intro hzero ops answers m hfile hm
    obtain ⟨s,hs,hkeeps⟩ := performAll_keepsLast junk d hfile hm
    have hterm : ∀ i < size, inUse s.dir.table i = true → Terminated s.dir.table i :=
      fun i hi _ => ⟨FileNameMaxLen,le_rfl,(hkeeps.last i hi).trans (hzero i hi)⟩
    refine ⟨s,hs,hterm,names s.dir.table 0 size,?_,hkeeps.refines.nodup_names,
      hkeeps.refines.mem_names⟩
    rw [ListFiles,hkeeps.refines.tableSize]
    exact list_of_terminated fun j _ hj => hterm j (by omega)

/-- The nine characters of `notes.txt`. -/
def notes : List Byte := [110#8,111#8,116#8,101#8,115#8,46#8,116#8,120#8,116#8]

/-- In zeroed memory `notes.txt` is terminated, also when it comes back from the disk. -/
theorem names_terminated_zeroed :
    ∃ s, performAll entryFile ⟨new 1 0,0⟩
        [.add (ofList notes) 5#32,.writeBack 0 0 0,.reopen 0 0] =
        .ok ([.success true,.done,.done],s) ∧
      (∀ i < 1, inUse s.dir.table i = true → Terminated s.dir.table i) ∧
      ∃ names : List (List Byte), s.dir.ListFiles = .ok (names.flatMap (· ++ [10#8])) ∧
        names.Nodup ∧ ∀ k, k ∈ names ↔ k ∈ (Finmap.singleton notes 5 : NameMap) :=
  (names_terminated_iff 1 (by decide) 0 entryFile 0).mpr (fun _ _ => rfl) _ _
    ⟨Finmap.singleton notes 5,some (Finmap.singleton notes 5)⟩ (fun _ => entryFile_hasSpace) rfl

/-- In memory that held other bytes, `notes.txt` is not terminated, and `List` reads on past the
field. -/
theorem notes_unterminated :
    ∃ s, performAll entryFile ⟨new 1 fun _ => 255#8,0⟩ [.add (ofList notes) 5#32] =
        .ok ([.success true],s) ∧
      inUse s.dir.table 0 = true ∧ ¬ Terminated s.dir.table 0 ∧
      s.dir.ListFiles = .error .undefined := by
  refine ⟨⟨((new 1 fun _ => 255#8).Add (ofList notes) 5).2,0⟩,rfl,by decide,?_,rfl⟩
  rintro ⟨k,hk,hz⟩
  revert k
  decide

end Directory
end NachOS
