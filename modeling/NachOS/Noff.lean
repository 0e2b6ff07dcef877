import NachOS.Memory

/-! The header of a NOFF file (userprog/noff.h, with `RDATA`): thirteen words, four
segments behind a magic number. -/
namespace NachOS

open Memory

abbrev NOFFMAGIC : ℤ := 0xbadfad

structure Segment where
  virtualAddr : ℤ
  inFileAddr : ℤ
  size : ℤ
  deriving DecidableEq, Repr

inductive SegmentName
  | code | initData | readonlyData | uninitData
  deriving DecidableEq, Repr

structure NoffHeader where
  noffMagic : ℤ
  segment : SegmentName → Segment

namespace NoffHeader

/-- `sizeof(NoffHeader)` -/
abbrev headerSize : ℕ := 52

def segmentNames : List SegmentName := [.code,.initData,.readonlyData,.uninitData]

/-- The fields in the order in which they are stored. -/
def words (h : NoffHeader) : List ℤ :=
  h.noffMagic :: segmentNames.flatMap fun n =>
    [(h.segment n).virtualAddr,(h.segment n).inFileAddr,(h.segment n).size]

/-- The offset of a segment in the header. -/
def offset : SegmentName → ℕ
  | .code => 4
  | .initData => 16
  | .readonlyData => 28
  | .uninitData => 40

/-- The header that a buffer holds. -/
def fetch (b : Buffer) : NoffHeader where
  noffMagic := int b 0
  segment := fun n => ⟨int b (offset n),int b (offset n + 4),int b (offset n + 8)⟩

/-- The bytes of the header. -/
def bytes (h : NoffHeader) : List Byte :=
  (List.range headerSize).map (setInts (fun _ => 0#8) 0 h.words)

/-- Every field is the value of an `int`. -/
def InRange (h : NoffHeader) : Prop := ∀ z ∈ h.words, -2 ^ 31 ≤ z ∧ z < 2 ^ 31

variable {h : NoffHeader} {b : Buffer}

@[simp] theorem length_bytes (h : NoffHeader) : h.bytes.length = headerSize := by
  simp [bytes]

theorem inRange_iff : h.InRange ↔ (-2 ^ 31 ≤ h.noffMagic ∧ h.noffMagic < 2 ^ 31) ∧
    ∀ n, (-2 ^ 31 ≤ (h.segment n).virtualAddr ∧ (h.segment n).virtualAddr < 2 ^ 31) ∧
      (-2 ^ 31 ≤ (h.segment n).inFileAddr ∧ (h.segment n).inFileAddr < 2 ^ 31) ∧
      -2 ^ 31 ≤ (h.segment n).size ∧ (h.segment n).size < 2 ^ 31 := by
  constructor
  · intro hr
    refine ⟨hr _ (by simp [words]),fun n => ⟨hr _ ?_,hr _ ?_,hr _ ?_⟩⟩ <;>
      cases n <;> simp [words,segmentNames]
  · rintro ⟨hm,hs⟩ z hz
    simp only [words,segmentNames,List.mem_cons,List.mem_flatMap,List.not_mem_nil,or_false] at hz
    rcases hz with rfl | ⟨n,_,rfl | rfl | rfl⟩
    · exact hm
    · exact (hs n).1
    · exact (hs n).2.1
    · exact (hs n).2.2

theorem inRange_fetch (b : Buffer) : (fetch b).InRange :=
  inRange_iff.mpr ⟨int_range b 0,fun _ => ⟨int_range b _,int_range b _,int_range b _⟩⟩

/-- What was stored is what is fetched, from every buffer that starts with those bytes. -/
theorem fetch_of_bytes (hr : h.InRange) (hb : ∀ k, k < headerSize → b k = h.bytes.getD k 0#8) :
    fetch b = h := by
  have hint : ∀ i z, 4 * i + 4 ≤ headerSize → h.words[i]? = some z → int b (4 * i) = z := by
    intro i z hi hz
    have hw := int_setInts (fun _ => 0#8) 0 hr hz
    rw [Nat.zero_add] at hw
    rw [← hw]
    refine int_congr fun j _ hj => ?_
    have hlt : j < headerSize := by omega
    rw [hb j hlt]
    simp [bytes,List.getD,hlt]
  cases h with
  | mk magic segment =>
    have hmagic : int b 0 = magic := hint 0 magic (by decide) rfl
    have hsegment : ∀ n, (⟨int b (offset n),int b (offset n + 4),int b (offset n + 8)⟩ : Segment) =
        segment n := by
      intro n
      cases n with
      | code =>
        exact congr (congrArg₂ Segment.mk (hint 1 _ (by decide) rfl) (hint 2 _ (by decide) rfl))
          (hint 3 _ (by decide) rfl)
      | initData =>
        exact congr (congrArg₂ Segment.mk (hint 4 _ (by decide) rfl) (hint 5 _ (by decide) rfl))
          (hint 6 _ (by decide) rfl)
      | readonlyData =>
        exact congr (congrArg₂ Segment.mk (hint 7 _ (by decide) rfl) (hint 8 _ (by decide) rfl))
          (hint 9 _ (by decide) rfl)
      | uninitData =>
        exact congr (congrArg₂ Segment.mk (hint 10 _ (by decide) rfl) (hint 11 _ (by decide) rfl))
          (hint 12 _ (by decide) rfl)
    rw [fetch,hmagic]
    exact congrArg _ (funext hsegment)

end NoffHeader
end NachOS
