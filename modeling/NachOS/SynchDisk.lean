import NachOS.SynchDevice
import NachOS.FileHeader

/-! `SynchDisk` (filesys/synchdisk.cc) over `Disk` (machine/disk.cc), and `SynchConsoleOutput`
(userprog/synchconsole.cc) over `ConsoleOutput` (machine/console.cc). -/
namespace NachOS

open StateMachine Memory

namespace SynchDisk

abbrev SectorNumber := { n : ℤ // 0 ≤ n ∧ n < NumSectors }

/-- The UNIX file that holds the sectors, and `active`. -/
structure Drive where
  sectors : Disk
  active : Bool

def ReadRequest (d : Drive) (sectorNumber : ℤ) : Except Fault (Buffer × Drive) := do
  check (¬ d.active)
  let data ← d.sectors.ReadSector sectorNumber
  return (data,{ d with active := true })

def WriteRequest (d : Drive) (sectorNumber : ℤ) (data : Buffer) : Except Fault Drive := do
  check (¬ d.active)
  let sectors ← d.sectors.WriteSector sectorNumber data 0
  return ⟨sectors,true⟩

def CallBack (d : Drive) : Drive := { d with active := false }

/-- The calls of `ReadSector` and `WriteSector`. -/
inductive Request
  | read (sectorNumber : SectorNumber)
  | write (sectorNumber : SectorNumber) (data : Buffer)

/-- The answer is what the caller's buffer contains afterwards. -/
def request (d : Drive) : Request → Except Fault (Buffer × Drive)
  | .read n => ReadRequest d n
  | .write n data => do return (data,← WriteRequest d n data)

theorem request_read {d : Drive} (hd : d.active = false) (n : SectorNumber) :
    request d (.read n) = .ok (d.sectors n.1.toNat,{ d with active := true }) := by
  simp only [request,ReadRequest,Disk.ReadSector,check_of n.2,
    check_of (show ¬ d.active by simp [hd])]
  rfl

theorem request_write {d : Drive} (hd : d.active = false) (n : SectorNumber) (data : Buffer) :
    request d (.write n data) = .ok (data,⟨Function.update d.sectors n.1.toNat
      (bcopy data 0 (d.sectors n.1.toNat) 0 SectorSize),true⟩) := by
  simp only [request,WriteRequest,Disk.WriteSector,check_of n.2,
    check_of (show ¬ d.active by simp [hd])]
  rfl

theorem request_idle {d : Drive} {r : Request} {x : Buffer × Drive} (h : request d r = .ok x) :
    d.active = false := by
  cases r with
  | read n =>
    obtain ⟨ha,_⟩ := check_bind_ok.mp h
    simpa using ha
  | write n data =>
    obtain ⟨_,hw,_⟩ := bind_ok.mp h
    obtain ⟨ha,_⟩ := check_bind_ok.mp hw
    simpa using ha

def device : SynchDevice.Device Drive Request Buffer where
  request := request
  done := CallBack
  Idle d := d.active = false
  done_idle _ := rfl
  request_ok d r hd := by
    cases r with
    | read n => exact ⟨_,request_read hd n⟩
    | write n data => exact ⟨_,request_write hd n data⟩

variable {Thread : Type}

/-- What a request writes to a sector. -/
def Request.writes (n : SectorNumber) : Request → Option Buffer
  | .read _ => none
  | .write m data => if m = n then some data else none

/-- The data of the most recent request to write the sector. -/
def lastWrite (log : List (Thread × Request × Buffer)) (n : SectorNumber) : Option Buffer :=
  log.reverse.findSome? fun e => e.2.1.writes n

theorem lastWrite_append (log : List (Thread × Request × Buffer)) (e : Thread × Request × Buffer)
    (n : SectorNumber) : lastWrite (log ++ [e]) n = (e.2.1.writes n).or (lastWrite log n) := by
  simp only [lastWrite,List.reverse_append,List.reverse_singleton,List.singleton_append,
    List.findSome?_cons]
  cases e.2.1.writes n <;> rfl

/-- The sectors hold what was written last, or what the disk contained at first. -/
def Holds (sectors : Disk) (d : Drive) (log : List (Thread × Request × Buffer)) : Prop :=
  ∀ n : SectorNumber, ∀ i, i < SectorSize →
    d.sectors n.1.toNat i = (lastWrite log n).getD (sectors n.1.toNat) i

/-- A request to read that was issued last got what was written last before it. -/
def ReadsLast (sectors : Disk) (log : List (Thread × Request × Buffer)) : Prop :=
  ∀ pre t n data, log = pre ++ [(t,.read n,data)] → ∀ i, i < SectorSize →
    data i = (lastWrite pre n).getD (sectors n.1.toNat) i

theorem toNat_ne {n m : SectorNumber} (h : n ≠ m) : n.1.toNat ≠ m.1.toNat := by
  intro he
  apply h
  have := n.2
  have := m.2
  exact Subtype.ext (by omega)

theorem holds_request {sectors : Disk} {d d' : Drive} {log : List (Thread × Request × Buffer)}
    {t : Thread} {r : Request} {answer : Buffer} (h : Holds sectors d log)
    (hr : request d r = .ok (answer,d')) :
    Holds sectors d' (log ++ [(t,r,answer)]) ∧ ReadsLast sectors (log ++ [(t,r,answer)]) := by
  have hidle := request_idle hr
  cases r with
  | read n =>
    rw [request_read hidle n] at hr
    cases hr
    refine ⟨fun m i hi => ?_,fun pre u m data hlog i hi => ?_⟩
    · rw [lastWrite_append]
      exact h m i hi
    · obtain ⟨hpre,he⟩ := List.append_inj' hlog rfl
      cases he
      rw [← hpre]
      exact h n i hi
  | write n data =>
    rw [request_write hidle n data] at hr
    cases hr
    refine ⟨fun m i hi => ?_,fun pre u m data' hlog => ?_⟩
    · rw [lastWrite_append]
      by_cases hm : n = m
      · subst hm
        simp only [Function.update_self,Request.writes,if_true,Option.some_or,Option.getD_some]
        rw [bcopy_in _ _ _ (by omega)]
        simp
      · simp only [Function.update_of_ne (toNat_ne (Ne.symm hm)),Request.writes,if_neg hm,
          Option.none_or]
        exact h m i hi
    · have he := (List.append_inj' hlog rfl).2
      cases he

variable [DecidableEq Thread]

/-- Every read that was issued last got what was written last, in every state that any
interleaving of the callers can reach. -/
theorem reads_last {sectors : Disk} {s : SynchDevice.State Thread Drive Request Buffer}
    (h : (SynchDevice.machine device ⟨sectors,false⟩).Reachable s) : ReadsLast sectors s.log := by
  refine (SynchDevice.device_invariant
    (R := fun d log => Holds sectors d log ∧ ReadsLast sectors log) ?_ ?_ ?_ h).2
  · refine ⟨fun n i hi => rfl,fun pre t n data hlog => ?_⟩
    cases pre <;> cases hlog
  · intro d log hd
    exact hd
  · intro d log t r answer d' hd hr
    exact holds_request hd.1 hr

end SynchDisk

namespace SynchConsoleOutput

/-- The UNIX file that simulates the display, and `putBusy`. -/
structure ConsoleOutput where
  file : List Byte
  putBusy : Bool

def PutChar (c : ConsoleOutput) (ch : Byte) : Except Fault (Unit × ConsoleOutput) := do
  check (c.putBusy = false)
  return ((),⟨c.file ++ [ch],true⟩)

def CallBack (c : ConsoleOutput) : ConsoleOutput := { c with putBusy := false }

def device : SynchDevice.Device ConsoleOutput Byte Unit where
  request := PutChar
  done := CallBack
  Idle c := c.putBusy = false
  done_idle _ := rfl
  request_ok c ch hc := by
    refine ⟨((),⟨c.file ++ [ch],true⟩),?_⟩
    simp only [PutChar,check_of hc]
    rfl

variable {Thread : Type} [DecidableEq Thread]

/-- The display shows the characters in the order in which the calls were issued. -/
theorem file_eq {s : SynchDevice.State Thread ConsoleOutput Byte Unit}
    (h : (SynchDevice.machine device ⟨[],false⟩).Reachable s) :
    s.device.file = s.log.map fun e => e.2.1 := by
  refine SynchDevice.device_invariant
    (R := fun c log => c.file = log.map fun e => e.2.1) rfl (fun c log hc => hc) ?_ h
  intro c log t ch answer c' hc hr
  obtain ⟨_,he⟩ := check_bind_ok.mp hr
  cases he
  simp [hc]

end SynchConsoleOutput

/-! Both wrappers in one kernel. -/
namespace SynchDevices

variable {Thread : Type} [DecidableEq Thread]

structure State (Thread : Type) where
  disk : SynchDevice.State Thread SynchDisk.Drive SynchDisk.Request Buffer
  console : SynchDevice.State Thread SynchConsoleOutput.ConsoleOutput Byte Unit

inductive Action (Thread : Type)
  | disk (a : SynchDevice.Action Thread SynchDisk.Request)
  | console (a : SynchDevice.Action Thread Byte)

/-- The thread that starts a call. -/
def calling {Request : Type} : SynchDevice.Action Thread Request → Option Thread
  | .call t _ => some t
  | _ => none

/-- A thread is in one call at a time. -/
def step (s : State Thread) : Action Thread → Except Fault (State Thread)
  | .disk a => do
    require (∀ t ∈ calling a, (s.console.argument t).isNone)
    return { s with disk := ← SynchDevice.step SynchDisk.device s.disk a }
  | .console a => do
    require (∀ t ∈ calling a, (s.disk.argument t).isNone)
    return { s with console := ← SynchDevice.step SynchConsoleOutput.device s.console a }

def initial (sectors : Disk) : State Thread :=
  ⟨SynchDevice.new ⟨sectors,false⟩,SynchDevice.new ⟨[],false⟩⟩

def machine (sectors : Disk) : Machine (State Thread) (Action Thread) where
  initial s := s = initial sectors
  step := step

/-- Either wrapper takes steps of its own machine. -/
theorem reachable_parts {sectors : Disk} {s : State Thread} (h : (machine sectors).Reachable s) :
    (SynchDevice.machine SynchDisk.device ⟨sectors,false⟩).Reachable s.disk ∧
    (SynchDevice.machine SynchConsoleOutput.device ⟨[],false⟩).Reachable s.console := by
  induction h with
  | start hi =>
    cases hi
    exact ⟨.start rfl,.start rfl⟩
  | @step s s' a _ hs ih =>
    cases a with
    | disk a =>
      obtain ⟨_,hs⟩ := require_bind_ok.mp hs
      obtain ⟨disk,hdisk,he⟩ := bind_ok.mp hs
      cases he
      exact ⟨.step ih.1 hdisk,ih.2⟩
    | console a =>
      obtain ⟨_,hs⟩ := require_bind_ok.mp hs
      obtain ⟨console,hconsole,he⟩ := bind_ok.mp hs
      cases he
      exact ⟨ih.1,.step ih.2 hconsole⟩

/-- The wrappers serialise the requests of any number of threads: one request of each kind is
outstanding at most, a call returns after the interrupt of its own request, a read with the
data of the last write, and the characters of a thread appear once each in its order. -/
theorem wrappers_serialise (sectors : Disk) (s : State Thread)
    (h : (machine sectors).Reachable s) :
    (∀ a, step s a ≠ .error .assertion) ∧
    (s.disk.pending.length ≤ 1 ∧ s.console.pending.length ≤ 1) ∧
    (0 ≤ s.disk.guard.value ∧ s.disk.guard.value ≤ 1) ∧
    (0 ≤ s.console.guard.value ∧ s.console.guard.value ≤ 1) ∧
    (∀ t s', step s (.disk (.release t)) = .ok s' → s.disk.number t ∈ s.disk.completed ∧
      ∃ pre r data, s.disk.log = pre ++ [(t,r,data)] ∧ s.disk.number t = pre.length ∧
        s.disk.argument t = some r ∧ s.disk.result t = some data ∧
        ∀ n, r = .read n → ∀ i, i < SectorSize →
          data i = (SynchDisk.lastWrite pre n).getD (sectors n.1.toNat) i) ∧
    (∀ t s', step s (.console (.release t)) = .ok s' →
      s.console.number t ∈ s.console.completed ∧ s.console.Latest t) ∧
    (s.console.device.file = s.console.log.map fun e => e.2.1) ∧
    ∀ t, s.console.issuedBy t <+: s.console.calls t ∧
      (s.console.argument t = none → s.console.issuedBy t = s.console.calls t) := by
  obtain ⟨hdisk,hconsole⟩ := reachable_parts h
  have hd := SynchDevice.reachable_inv rfl hdisk
  have hc := SynchDevice.reachable_inv rfl hconsole
  refine ⟨fun a hs => ?_,⟨hd.bounds.1,hc.bounds.1⟩,hd.bounds.2,hc.bounds.2,fun t s' hs => ?_,
    fun t s' hs => ?_,SynchConsoleOutput.file_eq hconsole,
    fun t => ⟨hc.issued_prefix t,hc.issued_all⟩⟩
  · cases a with
    | disk a =>
      exact hd.step_not_assertion a (bind_pure_assertion.mp (require_bind_assertion.mp hs).2)
    | console a =>
      exact hc.step_not_assertion a (bind_pure_assertion.mp (require_bind_assertion.mp hs).2)
  · obtain ⟨disk,hs,_⟩ := bind_ok.mp (require_bind_ok.mp hs).2
    obtain ⟨hcompleted,pre,r,data,hlog,hnumber,hargument,hresult⟩ := hd.returns hs
    refine ⟨hcompleted,pre,r,data,hlog,hnumber,hargument,hresult,fun n hr => ?_⟩
    subst hr
    exact SynchDisk.reads_last hdisk pre t n data hlog
  · obtain ⟨console,hs,_⟩ := bind_ok.mp (require_bind_ok.mp hs).2
    exact hc.returns hs

/-- Thread 0 writes sector 3 while thread 1 waits for the lock and then reads it. -/
def writeThenRead : List (Action (Fin 2)) :=
  [.disk (.call 0 (.write ⟨3,by decide⟩ fun _ => 7)),.disk (.call 1 (.read ⟨3,by decide⟩)),
    .disk (.setHolder 0),.disk (.request 0),.disk (.P 0),.disk (.interrupt 0),.disk (.resumeP 0),
    .disk (.release 0),.disk (.resume 1),.disk (.setHolder 1),.disk (.request 1),
    .disk (.interrupt 1),.disk (.P 1)]

theorem wrappers_serialise_read : ∃ s, (machine fun _ _ => 0).run (initial fun _ _ => 0)
    writeThenRead = .ok s ∧ ∃ s', step s (.disk (.release 1)) = .ok s' ∧
    s.disk.number 1 = 1 ∧ s.disk.number 1 ∈ s.disk.completed := by
  have hstart : (machine fun _ _ => 0).Reachable (initial fun _ _ => 0 : State (Fin 2)) :=
    .start rfl
  refine ⟨_,rfl,_,rfl,rfl,?_⟩
  have hs := hstart.run (show (machine fun _ _ => 0).run _ writeThenRead = .ok _ from rfl)
  exact ((wrappers_serialise _ _ hs).2.2.2.2.1 1 _ rfl).1

end SynchDevices

end NachOS
