import NachOS.Directory
import NachOS.SlotMap

/-! A directory is a bounded finite map from names, as far as they are compared, to sectors
(filesys/directory.cc), over any sequence of its operations. -/
namespace NachOS

open StateMachine Memory FileHeader OpenFile

namespace Directory

/-- The operations.  The buffers are the memory that an operation allocates; `reopen` makes
a new directory of the same size and fetches it. -/
inductive Operation
  | find (name : Buffer)
  | add (name : Buffer) (newSector : BitVec 32)
  | remove (name : Buffer)
  | writeBack (buf buf₁ buf₂ : Buffer)
  | fetchFrom (buf : Buffer)
  | reopen (junk buf : Buffer)

/-- What an operation returns. -/
inductive Answer
  | sector (s : ℤ) | success (b : Bool) | done
  deriving DecidableEq, Repr

/-- The directory in memory, and the disk. -/
structure Store where
  dir : Directory
  disk : Disk

def perform (file : OpenFile) (s : Store) : Operation → Except Fault (Answer × Store)
  | .find name => return (.sector (s.dir.Find name),s)
  | .add name newSector =>
    let (success,dir) := s.dir.Add name newSector.toInt
    return (.success success,{ s with dir := dir })
  | .remove name =>
    let (success,dir) := s.dir.Remove name
    return (.success success,{ s with dir := dir })
  | .writeBack buf buf₁ buf₂ => do
    let disk ← s.dir.WriteBack file s.disk buf buf₁ buf₂
    return (.done,{ s with disk := disk })
  | .fetchFrom buf => do
    let dir ← s.dir.FetchFrom file s.disk buf
    return (.done,{ s with dir := dir })
  | .reopen junk buf => do
    let dir ← (new s.dir.tableSize junk).FetchFrom file s.disk buf
    return (.done,{ s with dir := dir })

def performAll (file : OpenFile) (s : Store) : List Operation → Except Fault (List Answer × Store)
  | [] => return ([],s)
  | op :: ops => do
    let (answer,s) ← perform file s op
    let (answers,s) ← performAll file s ops
    return (answer :: answers,s)

/-! The purpose. -/

abbrev NameMap := Finmap fun _ : List Byte => ℤ

/-- The map in memory, and the one that was written back last. -/
structure Model where
  map : NameMap
  saved : Option NameMap

/-- The operations on a map that has room for `size` names; it can be fetched after it was
written back. -/
def Model.perform (size : ℕ) (m : Model) : Operation → Option (Answer × Model)
  | .find name => some (.sector ((m.map.lookup (key name)).getD (-1)),m)
  | .add name newSector =>
    let (success,map) := SlotMap.add size m.map (key name) newSector.toInt
    some (.success success,{ m with map := map })
  | .remove name =>
    let (success,map) := SlotMap.remove m.map (key name)
    some (.success success,{ m with map := map })
  | .writeBack .. => some (.done,{ m with saved := some m.map })
  | .fetchFrom .. | .reopen .. => m.saved.map fun map => (.done,{ m with map := map })

def Model.performAll (size : ℕ) (m : Model) : List Operation → Option (List Answer × Model)
  | [] => some ([],m)
  | op :: ops => do
    let (answer,m) ← m.perform size op
    let (answers,m) ← m.performAll size ops
    return (answer :: answers,m)

/-! The refinement. -/

def Operation.onDisk : Operation → Bool
  | .writeBack .. | .fetchFrom .. | .reopen .. => true
  | _ => false

/-- The file can hold a directory of this size. -/
def HasSpace (file : OpenFile) (size : ℕ) : Prop :=
  Ok file.hdr ∧ ((size * entrySize : ℕ) : ℤ) ≤ numBytes file.hdr

structure Refines (file : OpenFile) (size : ℕ) (s : Store) (m : Model) : Prop where
  tableSize : s.dir.tableSize = size
  map : SlotMap.Represents (entry s.dir.table) size m.map
  saved : ∀ map, m.saved = some map →
    SlotMap.Represents (entry (byteAt s.disk file.hdr)) size map

variable {file : OpenFile} {size : ℕ} {s : Store} {m : Model}

theorem refines_new (junk : Buffer) (d : Disk) :
    Refines file size ⟨new size junk,d⟩ ⟨∅,none⟩ :=
  ⟨rfl,SlotMap.represents_empty fun _ hi => entry_new size junk hi,nofun⟩

namespace Refines

variable (h : Refines file size s m)

include h

/-- The search finds a name just if the map has it. -/
theorem search (name : Buffer) :
    (∃ j v, j < size ∧ entry s.dir.table j = some (v,key name) ∧ key name ∈ m.map ∧
      s.dir.FindIndex name = j ∧ s.dir.Find name = v) ∨
    (key name ∉ m.map ∧ s.dir.FindIndex name = -1 ∧ s.dir.Find name = -1) := by
  rcases s.dir.Find_ok name with ⟨j,v,hj,he,hindex,hfind⟩ | ⟨hall,hindex,hfind⟩
  · rw [h.tableSize] at hj
    exact Or.inl ⟨j,v,hj,he,h.map.mem_iff.mpr ⟨j,hj,v,he⟩,hindex,hfind⟩
  · rw [h.tableSize] at hall
    refine Or.inr ⟨?_,hindex,hfind⟩
    rw [h.map.mem_iff]
    rintro ⟨i,hi,v,he⟩
    exact hall i v hi he

/-- Find returns what the map has. -/
theorem find (name : Buffer) : s.dir.Find name = (m.map.lookup (key name)).getD (-1) := by
  rcases h.search name with ⟨j,v,hj,he,_,_,hfind⟩ | ⟨habsent,_,hfind⟩
  · rw [hfind,(h.map.lookup _ _).mpr ⟨j,hj,he⟩]
    rfl
  · rw [hfind,Finmap.lookup_eq_none.mpr habsent]
    rfl

theorem add (name : Buffer) (newSector : BitVec 32) :
    ∃ t, s.dir.Add name newSector.toInt =
        ((SlotMap.add size m.map (key name) newSector.toInt).1,⟨size,t⟩) ∧
      SlotMap.Represents (entry t) size
        (SlotMap.add size m.map (key name) newSector.toInt).2 := by
  have hlow := BitVec.le_toInt newSector
  have hhigh := BitVec.toInt_lt (x := newSector)
  have hdir : s.dir = ⟨size,s.dir.table⟩ := by rw [← h.tableSize]
  rcases h.search name with ⟨j,_,_,_,hmem,hindex,_⟩ | ⟨hnew,hindex,_⟩
  · -- the name is there
    have hrefused : s.dir.Add name newSector.toInt = (false,s.dir) := by
      unfold Add
      rw [hindex]
      exact if_pos (by omega)
    refine ⟨s.dir.table,?_,?_⟩
    · rw [hrefused,SlotMap.add,if_pos (Or.inl hmem),← hdir]
    · rw [SlotMap.add,if_pos (Or.inl hmem)]
      exact h.map
  · rcases Add_ok s.dir hlow hhigh hindex with ⟨i,t,hi,hfree,hadd,hentry⟩ | ⟨hused,hadd⟩
    · rw [h.tableSize] at hi hadd
      have hroom : ¬ (key name ∈ m.map ∨ m.map.keys.card = size) := by
        rintro (hmem | hcard)
        · exact hnew hmem
        · exact h.map.full_iff.mp hcard i hi hfree
      rw [SlotMap.add,if_neg hroom]
      exact ⟨t,hadd,h.map.insert hnew hi hfree hentry⟩
    · rw [h.tableSize] at hused
      have hfull : key name ∈ m.map ∨ m.map.keys.card = size := Or.inr (h.map.full_iff.mpr hused)
      refine ⟨s.dir.table,?_,?_⟩
      · rw [hadd,SlotMap.add,if_pos hfull,← hdir]
      · rw [SlotMap.add,if_pos hfull]
        exact h.map

theorem remove (name : Buffer) :
    ∃ t, s.dir.Remove name = ((SlotMap.remove m.map (key name)).1,⟨size,t⟩) ∧
      SlotMap.Represents (entry t) size (SlotMap.remove m.map (key name)).2 := by
  have hdir : s.dir = ⟨size,s.dir.table⟩ := by rw [← h.tableSize]
  rcases h.search name with ⟨j,v,hj,he,hmem,hindex,_⟩ | ⟨habsent,hindex,_⟩
  · obtain ⟨t,hremove,hentry⟩ := Remove_ok s.dir hindex
    rw [h.tableSize] at hremove
    rw [SlotMap.remove,if_pos hmem]
    exact ⟨t,hremove,h.map.erase hj he hentry⟩
  · have hrefused : s.dir.Remove name = (false,s.dir) := by
      unfold Remove
      rw [hindex]
      exact if_pos rfl
    rw [SlotMap.remove,if_neg habsent]
    exact ⟨s.dir.table,by rw [hrefused,← hdir],h.map⟩

theorem fetchFrom {dir : Directory} (hdir : dir.tableSize = size) (hfile : HasSpace file size)
    {map : NameMap} (hsaved : m.saved = some map) (buf : Buffer) :
    ∃ t, dir.FetchFrom file s.disk buf = .ok ⟨size,t⟩ ∧
      SlotMap.Represents (entry t) size map := by
  obtain ⟨t,hfetch,hentry⟩ := FetchFrom_ok dir hfile.1 s.disk buf (by rw [hdir]; exact hfile.2)
  rw [hdir] at hfetch hentry
  exact ⟨t,hfetch,(h.saved map hsaved).congr hentry⟩

/-- One operation. -/
theorem step {op : Operation} {answer : Answer} {m' : Model}
    (hfile : op.onDisk = true → HasSpace file size) (hm : m.perform size op = some (answer,m')) :
    ∃ s', perform file s op = .ok (answer,s') ∧ Refines file size s' m' := by
  cases op with
  | find name =>
    cases hm
    refine ⟨s,?_,h⟩
    rw [perform,h.find name]
    rfl
  | add name newSector =>
    cases hm
    obtain ⟨t,hadd,hmap⟩ := h.add name newSector
    refine ⟨{ s with dir := ⟨size,t⟩ },?_,rfl,hmap,h.saved⟩
    rw [perform,hadd]
    rfl
  | remove name =>
    cases hm
    obtain ⟨t,hremove,hmap⟩ := h.remove name
    refine ⟨{ s with dir := ⟨size,t⟩ },?_,rfl,hmap,h.saved⟩
    rw [perform,hremove]
    rfl
  | writeBack buf buf₁ buf₂ =>
    cases hm
    obtain ⟨hok,hlen⟩ := hfile rfl
    obtain ⟨d',hwrite,_,hentry⟩ := WriteBack_ok s.dir hok s.disk buf buf₁ buf₂
      (by rw [h.tableSize]; exact hlen)
    rw [h.tableSize] at hentry
    refine ⟨{ s with disk := d' },bind_ok.mpr ⟨d',hwrite,rfl⟩,h.tableSize,h.map,fun map hmap => ?_⟩
    cases hmap
    exact h.map.congr hentry
  | fetchFrom buf =>
    obtain ⟨map,hsaved,hm⟩ := Option.map_eq_some_iff.mp hm
    cases hm
    obtain ⟨t,hfetch,hmap⟩ := h.fetchFrom h.tableSize (hfile rfl) hsaved buf
    exact ⟨{ s with dir := ⟨size,t⟩ },bind_ok.mpr ⟨_,hfetch,rfl⟩,rfl,hmap,h.saved⟩
  | reopen junk buf =>
    obtain ⟨map,hsaved,hm⟩ := Option.map_eq_some_iff.mp hm
    cases hm
    have hsize : (new s.dir.tableSize junk).tableSize = size := h.tableSize
    obtain ⟨t,hfetch,hmap⟩ := h.fetchFrom hsize (hfile rfl) hsaved buf
    exact ⟨{ s with dir := ⟨size,t⟩ },bind_ok.mpr ⟨_,hfetch,rfl⟩,rfl,hmap,h.saved⟩

end Refines

/-- What every operation preserves, and all of them do. -/
theorem performAll_of_step {P : Store → Model → Prop}
    (hstep : ∀ {s m op answer m'}, P s m → (op.onDisk = true → HasSpace file size) →
      m.perform size op = some (answer,m') → ∃ s', perform file s op = .ok (answer,s') ∧ P s' m')
    (h : P s m) {ops : List Operation} {answers : List Answer} {m' : Model}
    (hfile : (∃ op ∈ ops, op.onDisk = true) → HasSpace file size)
    (hm : m.performAll size ops = some (answers,m')) :
    ∃ s', performAll file s ops = .ok (answers,s') ∧ P s' m' := by
  induction ops generalizing s m answers with
  | nil =>
    cases hm
    exact ⟨s,rfl,h⟩
  | cons op ops ih =>
    obtain ⟨⟨answer,m₁⟩,hop,hm⟩ := Option.bind_eq_some_iff.mp hm
    obtain ⟨⟨rest,m₂⟩,hops,hm⟩ := Option.bind_eq_some_iff.mp hm
    cases hm
    obtain ⟨s₁,hrun₁,h₁⟩ := hstep h (fun hd => hfile ⟨op,List.mem_cons_self,hd⟩) hop
    obtain ⟨s₂,hrun₂,h₂⟩ := ih h₁ (fun ⟨o,ho,hd⟩ => hfile ⟨o,List.mem_cons_of_mem _ ho,hd⟩) hops
    exact ⟨s₂,bind_ok.mpr ⟨_,hrun₁,bind_ok.mpr ⟨_,hrun₂,rfl⟩⟩,h₂⟩

/-- Whatever the table size, every sequence of operations returns what it returns on a
bounded finite map, and the entries in use are the pairs of that map, each name in one entry
only. -/
theorem directory_is_map (size : ℕ) (junk : Buffer) (file : OpenFile) (d : Disk)
    (ops : List Operation) (hfile : (∃ op ∈ ops, op.onDisk = true) → HasSpace file size)
    {answers : List Answer} {m : Model}
    (hm : (⟨∅,none⟩ : Model).performAll size ops = some (answers,m)) :
    ∃ s, performAll file ⟨new size junk,d⟩ ops = .ok (answers,s) ∧
      (∀ k v, m.map.lookup k = some v ↔ ∃ i < size, entry s.dir.table i = some (v,k)) ∧
      ∀ i j v w k, i < size → j < size → entry s.dir.table i = some (v,k) →
        entry s.dir.table j = some (w,k) → i = j := by
  obtain ⟨s,hrun,h⟩ := performAll_of_step (P := Refines file size)
    (fun hr hd hop => hr.step hd hop) (refines_new junk d) hfile hm
  exact ⟨s,hrun,h.map.lookup,fun i j v w k hi hj he₁ he₂ => h.map.distinct hi hj he₁ he₂⟩

/-- A file of one sector and the twenty bytes of one entry. -/
def entryFile : OpenFile := ⟨ofList [20#8,0#8,0#8,0#8,1#8,0#8,0#8,0#8,7#8],0⟩

theorem entryFile_hasSpace : HasSpace entryFile 1 := by
  have hbytes : numBytes entryFile.hdr = 20 := by decide
  have hsectors : numSectors entryFile.hdr = 1 := by decide
  refine ⟨⟨?_,?_,?_,?_,?_⟩,?_⟩
  · rw [hbytes]
    decide
  · rw [hbytes,hsectors]
    decide
  · rw [hsectors]
    decide
  · intro i hi
    rw [hsectors] at hi
    obtain rfl : i = 0 := by omega
    decide
  · intro i j hi hj _
    omega
  · rw [hbytes]
    decide

/-- The pair that was written back is there again after it was removed. -/
def reopened : List Operation :=
  [.add (letter 97#8) 5#32,.writeBack 0 0 0,.add (letter 98#8) 6#32,.remove (letter 97#8),
   .reopen 0 0,.find (letter 97#8)]

theorem directory_is_map_reopened :
    ∃ s, performAll entryFile ⟨new 1 0,0⟩ reopened = .ok ([.success true,.done,.success false,
      .success true,.done,.sector 5],s) ∧
      (∀ k v, (Finmap.singleton [97#8] 5 : NameMap).lookup k = some v ↔
        ∃ i < 1, entry s.dir.table i = some (v,k)) ∧
      ∀ i j v w k, i < 1 → j < 1 → entry s.dir.table i = some (v,k) →
        entry s.dir.table j = some (w,k) → i = j :=
  directory_is_map 1 0 entryFile 0 reopened (fun _ => entryFile_hasSpace)
    (m := ⟨Finmap.singleton [97#8] 5,some (Finmap.singleton [97#8] 5)⟩) rfl

end Directory
end NachOS
