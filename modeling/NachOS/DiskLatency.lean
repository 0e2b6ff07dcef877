import NachOS.Rotation
import NachOS.FileHeader

/-! The simulated time of disk requests (machine/disk.cc): how long a request takes from
where the head is, and what is in the track buffer.  What the sectors contain is left out
here. -/
namespace NachOS
namespace DiskLatency

open StateMachine Memory Rotation

abbrev SectorsPerTrack : ℤ := 32
abbrev RotationTime : ℤ := 500
abbrev SeekTime : ℤ := 500

/-- A request, with the tick at which it was issued. -/
structure Request where
  issued : ℤ
  sector : ℤ
  writing : Bool
  deriving DecidableEq, Repr

/-- The clock, the fields of `Disk` and the tick of the interrupt that it has scheduled.
`log` are the requests so far. -/
structure State where
  totalTicks : ℤ
  lastSector : ℤ
  bufferInit : ℤ
  active : Bool
  when : ℤ
  log : List Request

def initial : State := ⟨0,0,0,false,0,[]⟩

/-- The time of the seek, and the rotation until the next sector boundary. -/
def TimeToSeek (s : State) (newSector : ℤ) : ℤ × ℤ :=
  let newTrack := newSector.tdiv SectorsPerTrack
  let oldTrack := s.lastSector.tdiv SectorsPerTrack
  let seek := (newTrack - oldTrack).natAbs * SeekTime
  -- `over`
  let rest := (wrap (s.totalTicks + seek)).tmod RotationTime
  (seek,if rest > 0 then RotationTime - rest else 0)

/-- `ModuloDiff(to, from)` -/
def ModuloDiff (a b : ℤ) : ℤ :=
  let toOffset := a.tmod SectorsPerTrack
  let fromOffset := b.tmod SectorsPerTrack
  (toOffset - fromOffset + SectorsPerTrack).tmod SectorsPerTrack

/-- `timeAfter` of `ComputeLatency` -/
def timeAfter (s : State) (newSector : ℤ) : ℤ :=
  let (seek,rotation) := TimeToSeek s newSector
  wrap (wrap (s.totalTicks + seek) + rotation)

/-- The condition under which `ComputeLatency` takes the sector from the track buffer. -/
def TrackBuffer (s : State) (newSector : ℤ) (writing : Bool) : Prop :=
  writing = false ∧ (TimeToSeek s newSector).1 = 0 ∧
    (wrap (timeAfter s newSector - s.bufferInit)).tdiv RotationTime >
      ModuloDiff newSector (s.bufferInit.tdiv RotationTime)

instance (s : State) (n : ℤ) (w : Bool) : Decidable (TrackBuffer s n w) :=
  inferInstanceAs (Decidable (_ ∧ _))

def ComputeLatency (s : State) (newSector : ℤ) (writing : Bool) : ℤ :=
  if TrackBuffer s newSector writing then RotationTime
  else
    let (seek,rotation) := TimeToSeek s newSector
    let rotation := rotation +
      ModuloDiff newSector ((timeAfter s newSector).tdiv RotationTime) * RotationTime
    seek + rotation + RotationTime

def UpdateLast (s : State) (newSector : ℤ) : State :=
  let (seek,rotate) := TimeToSeek s newSector
  let bufferInit :=
    if seek ≠ 0 then wrap (wrap (s.totalTicks + seek) + rotate) else s.bufferInit
  { s with bufferInit := bufferInit,lastSector := newSector }

/-- `ReadRequest` and `WriteRequest`, up to `Schedule`, whose assertion is the last one. -/
def request (s : State) (sectorNumber : ℤ) (writing : Bool) : Except Fault State := do
  let ticks := ComputeLatency s sectorNumber writing
  check (¬ s.active)
  check (0 ≤ sectorNumber ∧ sectorNumber < NumSectors)
  let t := UpdateLast s sectorNumber
  check (ticks > 0)
  let log := s.log ++ [⟨s.totalTicks,sectorNumber,writing⟩]
  return { t with active := true,when := wrap (s.totalTicks + ticks),log := log }

def ReadRequest (s : State) (sectorNumber : ℤ) : Except Fault State := request s sectorNumber false

def WriteRequest (s : State) (sectorNumber : ℤ) : Except Fault State := request s sectorNumber true

inductive Action
  | advance (totalTicks : ℤ)
  | read (sectorNumber : ℤ)
  | write (sectorNumber : ℤ)
  | callBack

/-- Time passes, requests are issued, and `CallBack` is called when the interrupt of the
request is due. -/
def step (s : State) : Action → Except Fault State
  | .advance totalTicks => do
    require (s.totalTicks ≤ totalTicks)
    return { s with totalTicks := totalTicks }
  | .read sectorNumber => ReadRequest s sectorNumber
  | .write sectorNumber => WriteRequest s sectorNumber
  | .callBack => do
    require (s.active ∧ s.when ≤ s.totalTicks)
    return { s with active := false }

def machine : Machine State Action := ⟨fun s => s = initial,step⟩

/-- Tick values stay below `2 ^ 31`. -/
def InTime (s : State) : Action → Prop
  | .advance totalTicks => totalTicks < 2 ^ 31
  | .read sectorNumber => s.totalTicks + ComputeLatency s sectorNumber false < 2 ^ 31
  | .write sectorNumber => s.totalTicks + ComputeLatency s sectorNumber true < 2 ^ 31
  | .callBack => True

/-! The head. -/

def track (sector : ℤ) : ℤ := sector / SectorsPerTrack

/-- The track that the head is on after the requests, and the tick at which its last seek
ended. -/
structure Head where
  track : ℤ
  arrived : ℤ
  deriving DecidableEq, Repr

def Head.seek (h : Head) (sector : ℤ) : ℤ :=
  (DiskLatency.track sector - h.track).natAbs * SeekTime

def Head.move (h : Head) (r : Request) : Head :=
  if DiskLatency.track r.sector = h.track then h
  else ⟨DiskLatency.track r.sector,r.issued + h.seek r.sector⟩

/-- At tick 0 the head is on track 0. -/
def head (log : List Request) : Head := log.foldl Head.move ⟨0,0⟩

theorem head_append (log : List Request) (r : Request) :
    head (log ++ [r]) = (head log).move r := by
  simp [head]

/-- The fields against the head: the buffer is loaded from the first boundary after the head
arrived on. -/
structure Inv (s : State) : Prop where
  clock : 0 ≤ s.totalTicks ∧ s.totalTicks < 2 ^ 31
  sector : 0 ≤ s.lastSector ∧ s.lastSector < NumSectors
  track : track s.lastSector = (head s.log).track
  arrived : 0 ≤ (head s.log).arrived
  buffer : s.bufferInit = boundary RotationTime (head s.log).arrived
  loaded : s.bufferInit ≤ s.when
  idle : s.active = false → s.when ≤ s.totalTicks

theorem inv_initial : Inv initial := by
  refine ⟨by decide,by decide,rfl,le_rfl,rfl,le_rfl,fun _ => le_rfl⟩

variable {s t : State} {sector : ℤ} {writing : Bool}

theorem ModuloDiff_nonneg {a : ℤ} (ha : 0 ≤ a) (b : ℤ) : 0 ≤ ModuloDiff a b := by
  have h₁ := Int.tmod_nonneg SectorsPerTrack ha
  have h₂ := Int.tmod_lt_of_pos b (show (0 : ℤ) < SectorsPerTrack by decide)
  unfold ModuloDiff
  apply Int.tmod_nonneg
  omega

theorem ModuloDiff_eq {a b : ℤ} (ha : 0 ≤ a) (hb : 0 ≤ b) :
    ModuloDiff a b = delay SectorsPerTrack a b := by
  have h₁ := Int.emod_nonneg a (show SectorsPerTrack ≠ 0 by decide)
  have h₂ := Int.emod_lt_of_pos b (show (0 : ℤ) < SectorsPerTrack by decide)
  simp only [ModuloDiff,delay]
  rw [Int.tmod_eq_emod_of_nonneg ha,Int.tmod_eq_emod_of_nonneg hb,
    Int.tmod_eq_emod_of_nonneg (by omega)]
  simp only [SectorsPerTrack]
  omega

/-- The rotation is less than a sector. -/
theorem rotation_range (s : State) (sector : ℤ) :
    0 ≤ (TimeToSeek s sector).2 ∧ (TimeToSeek s sector).2 < RotationTime := by
  have h := Int.tmod_lt_of_pos (wrap (s.totalTicks + (TimeToSeek s sector).1))
    (show (0 : ℤ) < RotationTime by decide)
  simp only [TimeToSeek,RotationTime] at h ⊢
  split <;> omega

theorem seek_nonneg (s : State) (sector : ℤ) : 0 ≤ (TimeToSeek s sector).1 := by
  simp only [TimeToSeek,SeekTime]
  omega

/-- A request takes the time to the next boundary and a sector at least. -/
theorem latency_ge (s : State) (h : 0 ≤ sector) (writing : Bool) :
    RotationTime ≤ ComputeLatency s sector writing ∧
      (TimeToSeek s sector).1 + (TimeToSeek s sector).2 < ComputeLatency s sector writing := by
  have hseek := seek_nonneg s sector
  have hrot := rotation_range s sector
  have hdiff := ModuloDiff_nonneg h ((timeAfter s sector).tdiv RotationTime)
  unfold ComputeLatency
  by_cases hb : TrackBuffer s sector writing
  · have hzero := hb.2.1
    rw [if_pos hb]
    omega
  · rw [if_neg hb]
    simp only [RotationTime] at hrot hdiff ⊢
    omega

/-- The arithmetic of a request does not wrap around. -/
structure Timely (s : State) (sector : ℤ) : Prop where
  inv : Inv s
  range : 0 ≤ sector ∧ sector < NumSectors
  after : s.totalTicks + (TimeToSeek s sector).1 + (TimeToSeek s sector).2 < 2 ^ 31

theorem timely (hi : Inv s) (hs : 0 ≤ sector ∧ sector < NumSectors)
    (ht : s.totalTicks + ComputeLatency s sector writing < 2 ^ 31) : Timely s sector := by
  have hlat := (latency_ge s hs.1 writing).2
  exact ⟨hi,hs,by omega⟩

namespace Timely

theorem seek_eq (h : Timely s sector) :
    (TimeToSeek s sector).1 = (head s.log).seek sector := by
  have hlast := h.inv.sector
  simp only [TimeToSeek,Head.seek]
  rw [Int.tdiv_eq_ediv_of_nonneg h.range.1,Int.tdiv_eq_ediv_of_nonneg hlast.1,← h.inv.track]
  rfl

/-- The rotation ends at the first boundary after the seek. -/
theorem boundary_eq (h : Timely s sector) :
    s.totalTicks + (TimeToSeek s sector).1 + (TimeToSeek s sector).2 =
      boundary RotationTime (s.totalTicks + (head s.log).seek sector) := by
  have hclock := h.inv.clock
  have hseek := seek_nonneg s sector
  have hrot := rotation_range s sector
  have hafter := h.after
  rw [← h.seek_eq,boundary]
  have hwrap : wrap (s.totalTicks + (TimeToSeek s sector).1) =
      s.totalTicks + (TimeToSeek s sector).1 := wrap_of_range (by omega) (by omega)
  have htwo : (TimeToSeek s sector).2 =
      if (s.totalTicks + (TimeToSeek s sector).1) % RotationTime > 0
      then RotationTime - (s.totalTicks + (TimeToSeek s sector).1) % RotationTime else 0 := by
    rw [← Int.tmod_eq_emod_of_nonneg (show 0 ≤ s.totalTicks + (TimeToSeek s sector).1 by omega),
      ← hwrap]
    rfl
  rw [htwo]
  simp only [RotationTime]
  split <;> omega

theorem timeAfter_eq (h : Timely s sector) : timeAfter s sector =
    boundary RotationTime (s.totalTicks + (head s.log).seek sector) := by
  have hclock := h.inv.clock
  have hseek := seek_nonneg s sector
  have hrot := rotation_range s sector
  have hafter := h.after
  rw [← h.boundary_eq]
  change wrap (wrap (s.totalTicks + (TimeToSeek s sector).1) + (TimeToSeek s sector).2) = _
  rw [wrap_of_range (z := s.totalTicks + (TimeToSeek s sector).1) (by omega) (by omega),
    wrap_of_range (by omega) hafter]

theorem seek_eq_zero_iff (h : Timely s sector) :
    (TimeToSeek s sector).1 = 0 ↔ track sector = (head s.log).track := by
  rw [h.seek_eq]
  simp only [Head.seek,SeekTime]
  omega

/-- Without the track buffer a request ends when the sector has passed for the first time
after the seek and the rotation. -/
theorem passed (h : Timely s sector) (hb : ¬ TrackBuffer s sector writing) :
    IsLeast {t | Passed RotationTime SectorsPerTrack sector t ∧
        boundary RotationTime (s.totalTicks + (head s.log).seek sector) + RotationTime ≤ t}
      (s.totalTicks + ComputeLatency s sector writing) := by
  have hclock := h.inv.clock
  have hseek := seek_nonneg s sector
  have hrot := rotation_range s sector
  have hsum := h.boundary_eq
  have hafter : 0 ≤ timeAfter s sector := by
    rw [h.timeAfter_eq,← hsum]
    omega
  have hleast := isLeast_passed (R := RotationTime) (S := SectorsPerTrack) (by decide) (by decide)
    sector (dvd_boundary RotationTime (s.totalTicks + (head s.log).seek sector))
  have hlat : s.totalTicks + ComputeLatency s sector writing =
      timeAfter s sector + delay SectorsPerTrack sector (timeAfter s sector / RotationTime) *
        RotationTime + RotationTime := by
    rw [ComputeLatency,if_neg hb,← ModuloDiff_eq h.range.1 (Int.ediv_nonneg hafter (by decide)),
      ← Int.tdiv_eq_ediv_of_nonneg hafter]
    simp only
    rw [h.timeAfter_eq,← hsum]
    ring
  rw [hlat,h.timeAfter_eq]
  exact hleast

/-- The sector is in the track buffer: it passed since the head arrived. -/
theorem buffered (h : Timely s sector) (hidle : s.active = false)
    (hb : TrackBuffer s sector writing) :
    writing = false ∧ track sector = (head s.log).track ∧
      Passes RotationTime SectorsPerTrack sector (head s.log).arrived
        (s.totalTicks + ComputeLatency s sector writing) := by
  have hlat : ComputeLatency s sector writing = RotationTime := if_pos hb
  obtain ⟨hread,hzero,hpast⟩ := hb
  have hclock := h.inv.clock
  have hrot := rotation_range s sector
  have hsum := h.boundary_eq
  have hloaded := h.inv.loaded
  have hready := h.inv.idle hidle
  have harrived := boundary_le (R := RotationTime) (by decide) (head s.log).arrived
  have hzero' := h.inv.arrived
  have hafter := h.timeAfter_eq
  have hb₀ : 0 ≤ s.bufferInit := by
    rw [h.inv.buffer]
    omega
  rw [← hafter,hzero] at hsum
  refine ⟨hread,h.seek_eq_zero_iff.mp hzero,?_⟩
  have hdiff : 0 ≤ timeAfter s sector - s.bufferInit ∧
      timeAfter s sector - s.bufferInit < 2 ^ 31 := by
    have hlt := h.after
    omega
  rw [wrap_of_range (by omega) hdiff.2,Int.tdiv_eq_ediv_of_nonneg hdiff.1,
    Int.tdiv_eq_ediv_of_nonneg hb₀,
    ModuloDiff_eq h.range.1 (Int.ediv_nonneg hb₀ (by decide))] at hpast
  have hdvd : RotationTime ∣ s.bufferInit := h.inv.buffer ▸ dvd_boundary RotationTime _
  obtain ⟨j,hj₁,hj₂,hj₃⟩ := passes_of_delay_lt (R := RotationTime) (by decide) (by decide) sector
    hdvd hpast
  refine ⟨j,?_,?_,hj₃⟩
  · rw [h.inv.buffer] at hj₁
    omega
  · rw [hlat]
    omega

end Timely

/-! Runs. -/

theorem request_ok (h : request s sector writing = .ok t) : s.active = false ∧
    (0 ≤ sector ∧ sector < NumSectors) ∧
    t = ⟨s.totalTicks,sector,(UpdateLast s sector).bufferInit,true,
      wrap (s.totalTicks + ComputeLatency s sector writing),
      s.log ++ [⟨s.totalTicks,sector,writing⟩]⟩ := by
  obtain ⟨hidle,h⟩ := check_bind_ok.mp h
  obtain ⟨hrange,h⟩ := check_bind_ok.mp h
  obtain ⟨_,h⟩ := check_bind_ok.mp h
  cases h
  exact ⟨by simpa using hidle,hrange,rfl⟩

/-- `UpdateLast` follows the head. -/
theorem Timely.updateLast (h : Timely s sector) (writing : Bool) :
    let r : Request := ⟨s.totalTicks,sector,writing⟩
    track (UpdateLast s sector).lastSector = (head (s.log ++ [r])).track ∧
    0 ≤ (head (s.log ++ [r])).arrived ∧
    (UpdateLast s sector).bufferInit =
      boundary RotationTime (head (s.log ++ [r])).arrived := by
  intro r
  have hclock := h.inv.clock
  have hseek := seek_nonneg s sector
  rw [head_append,Head.move]
  by_cases htrack : track sector = (head s.log).track
  · rw [if_pos htrack]
    refine ⟨htrack,h.inv.arrived,?_⟩
    rw [← h.inv.buffer]
    exact if_neg (not_not_intro (h.seek_eq_zero_iff.mpr htrack))
  · rw [if_neg htrack]
    refine ⟨rfl,?_,?_⟩
    · rw [← h.seek_eq]
      simp only [r]
      omega
    · rw [← h.timeAfter_eq]
      exact if_pos fun hzero => htrack (h.seek_eq_zero_iff.mp hzero)

theorem Inv.request (hi : Inv s) (hticks : s.totalTicks + ComputeLatency s sector writing < 2 ^ 31)
    (h : request s sector writing = .ok t) : Inv t := by
  obtain ⟨hidle,hrange,rfl⟩ := request_ok h
  have ht := timely hi hrange hticks
  have hclock := hi.clock
  have hlat := latency_ge s hrange.1 writing
  obtain ⟨htrack,harrived,hbuffer⟩ := ht.updateLast writing
  have hwhen : wrap (s.totalTicks + ComputeLatency s sector writing) =
      s.totalTicks + ComputeLatency s sector writing := by
    refine wrap_of_range ?_ hticks
    have hpos := hlat.1
    simp only [RotationTime] at hpos
    omega
  refine ⟨hclock,hrange,htrack,harrived,hbuffer,?_,fun hno => by cases hno⟩
  simp only [hwhen]
  -- the buffer is loaded from a tick before the sector passes
  have hafter := ht.boundary_eq
  have hloaded := hi.loaded
  have hready := hi.idle hidle
  by_cases hzero : (TimeToSeek s sector).1 = 0
  · have hkeep : (UpdateLast s sector).bufferInit = s.bufferInit :=
      if_neg (not_not_intro hzero)
    have hpos := hlat.1
    simp only [RotationTime] at hpos
    omega
  · have hnew : (UpdateLast s sector).bufferInit = timeAfter s sector := if_pos hzero
    rw [hnew,ht.timeAfter_eq,← hafter]
    omega

theorem Inv.step (hi : Inv s) {a : Action} (ha : InTime s a) (h : step s a = .ok t) : Inv t := by
  cases a with
  | advance totalTicks =>
    obtain ⟨hle,h⟩ := require_bind_ok.mp h
    cases h
    have hclock := hi.clock
    refine ⟨⟨by simp only; omega,ha⟩,hi.sector,hi.track,hi.arrived,hi.buffer,hi.loaded,?_⟩
    intro hidle
    exact (hi.idle hidle).trans hle
  | read sectorNumber => exact hi.request ha h
  | write sectorNumber => exact hi.request ha h
  | callBack =>
    obtain ⟨⟨_,hdue⟩,h⟩ := require_bind_ok.mp h
    cases h
    exact ⟨hi.clock,hi.sector,hi.track,hi.arrived,hi.buffer,hi.loaded,fun _ => hdue⟩

theorem inv_reachable (h : machine.ReachableWith InTime s) : Inv s :=
  h.invariant (fun _ hs => hs ▸ inv_initial) fun _ _ _ hi ha hs => hi.step ha hs

/-- In every run in which requests are issued to an idle disk and the ticks stay below
`2 ^ 31`: a request takes a rotation at least, so it can be scheduled.  Without the track
buffer it ends at the first time that the sector has passed under the head, a rotation at
least after the first boundary `b` after the seek.  The track buffer is used for reads on
the track of the head only, for sectors that have passed since the last seek. -/
theorem latency_rotating (h : machine.ReachableWith InTime s) (hidle : s.active = false)
    (hsector : 0 ≤ sector ∧ sector < NumSectors) (writing : Bool)
    (hticks : s.totalTicks + ComputeLatency s sector writing < 2 ^ 31) :
    RotationTime ≤ ComputeLatency s sector writing ∧
    (∃ t, request s sector writing = .ok t) ∧
    (¬ TrackBuffer s sector writing → ∀ b,
      IsLeast {b | RotationTime ∣ b ∧ s.totalTicks + (head s.log).seek sector ≤ b} b →
      IsLeast {t | RotationTime ∣ t ∧
          t / RotationTime % SectorsPerTrack = (sector + 1) % SectorsPerTrack ∧
          b + RotationTime ≤ t} (s.totalTicks + ComputeLatency s sector writing)) ∧
    (TrackBuffer s sector writing → writing = false ∧ track sector = (head s.log).track ∧
      ∃ j, (head s.log).arrived ≤ RotationTime * j ∧
        RotationTime * (j + 1) ≤ s.totalTicks + ComputeLatency s sector writing ∧
        j % SectorsPerTrack = sector % SectorsPerTrack) := by
  have ht := timely (inv_reachable h) hsector hticks
  have hlat := (latency_ge s hsector.1 writing).1
  refine ⟨hlat,?_,fun hb b hleast => ?_,fun hb => ht.buffered hidle hb⟩
  · have hpos : ComputeLatency s sector writing > 0 := by
      simp only [RotationTime] at hlat
      omega
    exact ⟨_,check_bind_ok.mpr ⟨by simp [hidle],check_bind_ok.mpr ⟨hsector,
      check_bind_ok.mpr ⟨hpos,rfl⟩⟩⟩⟩
  · have hbound := hleast.unique (isLeast_boundary (by decide) _)
    have hpassed := ht.passed hb
    rw [hbound]
    simp only [Passed,and_assoc] at hpassed
    exact hpassed

/-- Sector 40 has been read: the head came to track 1 at tick 500, and sector 40 had passed
at tick 4500. -/
def sectorRead : State := ⟨5100,40,500,false,4500,[⟨0,40,false⟩]⟩

theorem reachable_sectorRead : machine.ReachableWith InTime sectorRead := by
  have hrequest : request initial 40 false = .ok ⟨0,40,500,true,4500,[⟨0,40,false⟩]⟩ := by
    have hlat : ComputeLatency initial 40 false = 4500 := by decide
    have hlast : UpdateLast initial 40 = ⟨0,40,500,false,0,[]⟩ := by
      rw [UpdateLast,show TimeToSeek initial 40 = (500,0) by decide]
      rfl
    rw [request,hlat,hlast]
    rfl
  have hread : machine.ReachableWith InTime ⟨0,40,500,true,4500,[⟨0,40,false⟩]⟩ :=
    .step (a := .read 40) (.start rfl) (by unfold InTime; decide) hrequest
  have hlater : machine.ReachableWith InTime ⟨5100,40,500,true,4500,[⟨0,40,false⟩]⟩ :=
    .step (a := .advance 5100) hread (by unfold InTime; decide) rfl
  exact .step (a := .callBack) hlater trivial rfl

/-- At tick 5100 sector 41 is in the track buffer.  For a write of sector 100 the seek is over
at tick 6100 and the next boundary is 6500; the sector has passed at tick 18500. -/
theorem latency_rotating_later : machine.ReachableWith InTime sectorRead ∧
    (TrackBuffer sectorRead 41 false ∧ ComputeLatency sectorRead 41 false = 500 ∧
      ∃ j, 500 ≤ RotationTime * j ∧ RotationTime * (j + 1) ≤ 5600 ∧ j % SectorsPerTrack = 9) ∧
    ComputeLatency sectorRead 100 true = 13400 ∧ (∃ t, request sectorRead 100 true = .ok t) ∧
    IsLeast {t | RotationTime ∣ t ∧ t / RotationTime % SectorsPerTrack = 101 % SectorsPerTrack ∧
      6500 + RotationTime ≤ t} 18500 := by
  have hreach := reachable_sectorRead
  have hbuffer : TrackBuffer sectorRead 41 false := by decide
  obtain ⟨-,-,-,hbuffered⟩ := @latency_rotating _ 41 hreach rfl (by decide) false (by decide)
  obtain ⟨-,hrun,hpassed,-⟩ := @latency_rotating _ 100 hreach rfl (by decide) true (by decide)
  refine ⟨hreach,⟨hbuffer,by decide,(hbuffered hbuffer).2.2⟩,by decide,hrun,
    hpassed (by decide) 6500 ⟨by decide,?_⟩⟩
  rintro b ⟨hdvd,hb⟩
  have hb : (6100 : ℤ) ≤ b := hb
  simp only [RotationTime] at hdvd
  omega

end DiskLatency
end NachOS
