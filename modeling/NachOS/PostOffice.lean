import NachOS.Mail
import NachOS.SynchList

/-! `PostOfficeInput` and `NetworkInput` of one machine (network/post.cc, machine/network.cc):
the interrupt handler fills the input buffer, the postal worker takes packets out of it and
puts them into the boxes, and threads receive from the boxes. -/
namespace NachOS

open StateMachine Memory

/-! A `SynchList` with one producer. -/
namespace SynchList

variable {Thread Item : Type} [DecidableEq Thread] [DecidableEq Item]

/-- The item of an `Append` that has not put it on the list. -/
def Call.inHand : Call Item → List Item
  | .appending item => [item]
  | _ => []

/-- Sections of calls that have begun. -/
def Action.Internal : Action Thread Item → Prop
  | .append _ _ | .removeFront _ => False
  | _ => True

instance (a : Action Thread Item) : Decidable a.Internal := by
  cases a <;> simp only [Action.Internal] <;> infer_instance

/-- `producer` is the only thread that appends. -/
def State.Fed (s : State Thread Item) (producer : Thread) : Prop :=
  ∀ t item, s.call t = .appending item → t = producer

/-- The items that the producer has begun to append. -/
def State.given (s : State Thread Item) (producer : Thread) : List Item :=
  s.appended ++ (s.call producer).inHand

variable {s s' : State Thread Item} {producer t : Thread}

omit [DecidableEq Item] in
theorem given_update {c : Call Item} (hc : c.inHand = []) (ht : (s.call t).inHand = []) :
    (Function.update s.call t c producer).inHand = (s.call producer).inHand := by
  by_cases he : producer = t
  · rw [he,Function.update_self,hc,ht]
  · rw [Function.update_of_ne he]

omit [DecidableEq Item] in
theorem fed_update {c : Call Item} (hfed : s.Fed producer) (hc : c.inHand = []) {u : Thread}
    {item : Item} (hu : Function.update s.call t c u = .appending item) : u = producer := by
  by_cases he : u = t
  · rw [he,Function.update_self] at hu
    simp [hu,Call.inHand] at hc
  · rw [Function.update_of_ne he] at hu
    exact hfed u item hu

/-- A section keeps what was given; it takes items off the list only. -/
structure Keeps (s s' : State Thread Item) (producer : Thread) : Prop where
  given : s'.given producer = s.given producer
  fed : s'.Fed producer
  removed : ∃ items, s'.removed = s.removed ++ items ∧ ∀ item ∈ items, item ∈ s.list

omit [DecidableEq Item] in
theorem keeps_of_call {c : Call Item} {l : Condition.State Thread} (hfed : s.Fed producer)
    (hc : c.inHand = []) (ht : (s.call t).inHand = []) :
    Keeps s { s with listEmpty := l,call := Function.update s.call t c } producer :=
  ⟨by simp only [State.given,given_update hc ht],fun _ _ => fed_update hfed hc,
    [],by simp,by simp⟩

omit [DecidableEq Thread] [DecidableEq Item] in
theorem keeps_of_listEmpty {l : Condition.State Thread} (hfed : s.Fed producer) :
    Keeps s { s with listEmpty := l } producer :=
  ⟨rfl,hfed,[],by simp,by simp⟩

theorem internal_keeps {a : Action Thread Item} (ha : a.Internal) (hfed : s.Fed producer)
    (h : step s a = .ok s') : Keeps s s' producer := by
  cases a with
  | append t item => exact ha.elim
  | removeFront t => exact ha.elim
  | lockResume t | waiterP t | waiterResume t =>
    obtain ⟨c,_,he⟩ := bind_ok.mp h
    cases he
    exact keeps_of_listEmpty hfed
  | reacquire t =>
    obtain ⟨_,h⟩ := require_bind_ok.mp h
    obtain ⟨c,_,he⟩ := bind_ok.mp h
    cases he
    exact keeps_of_listEmpty hfed
  | finishAppend t =>
    obtain ⟨hcall,h⟩ := require_bind_ok.mp h
    obtain ⟨c,_,he⟩ := bind_ok.mp h
    cases he
    exact keeps_of_call hfed rfl (by rw [hcall]; rfl)
  | enter t =>
    rcases enter_cases h with ⟨item,hcall,h⟩ | ⟨hcall,h⟩
    · have ht := hfed t item hcall
      subst ht
      obtain ⟨_,_,_,_,_,hend⟩ := State.appendBody_ok h
      rcases hend with ⟨_,_,_,rfl⟩ | ⟨_,rfl⟩
      · refine ⟨?_,fun _ _ => fed_update hfed rfl,[],by simp,by simp⟩
        simp [State.given,hcall,Call.inHand]
      · refine ⟨?_,fun _ _ => fed_update hfed rfl,[],by simp,by simp⟩
        simp [State.given,hcall,Call.inHand]
    · obtain ⟨_,_,hend⟩ := State.removeFrontBody_ok h
      rcases hend with ⟨_,_,_,rfl⟩ | ⟨item,list,_,hlist,_,rfl⟩
      · exact keeps_of_listEmpty hfed
      · refine ⟨?_,fun _ _ => fed_update hfed rfl,[item],rfl,by simp [hlist]⟩
        have hhand : (s.call t).inHand = [] := by rw [hcall]; rfl
        simp only [State.given,given_update (c := .none) rfl hhand]

theorem removeFront_keeps (hfed : s.Fed producer) (h : s.removeFront t = .ok s') :
    Keeps s s' producer := by
  obtain ⟨hcall,h⟩ := require_bind_ok.mp h
  obtain ⟨c,_,he⟩ := bind_ok.mp h
  cases he
  exact keeps_of_call hfed rfl (by rw [hcall]; rfl)

/-- The producer begins to append an item. -/
theorem append_given {item : Item} (hfed : s.Fed producer)
    (h : s.append producer item = .ok s') :
    s'.given producer = s.given producer ++ [item] ∧ s'.Fed producer ∧
      s'.removed = s.removed := by
  obtain ⟨hcall,h⟩ := require_bind_ok.mp h
  obtain ⟨c,_,he⟩ := bind_ok.mp h
  cases he
  refine ⟨by simp [State.given,hcall,Call.inHand],fun u i hu => ?_,rfl⟩
  by_cases he : u = producer
  · exact he
  · simp only [Function.update_of_ne he] at hu
    exact hfed u i hu

end SynchList

namespace PostOffice

variable {Thread : Type} [DecidableEq Thread]

/-- Where the postal worker is: before its first message, asleep in `P`, past `P`, or in `Put`
for a box or past it. -/
inductive Worker
  | loop | waiting | passed | putting (box : ℕ)
  deriving DecidableEq, Repr

/-- The boxes hold pointers; a message is paired with its address, the number of its
allocation.  `arrived` and `taken` are ghosts: the messages in the order in which their packets
were read from the socket and taken from the input buffer. -/
structure State (Thread : Type) where
  network : NetworkInput
  messageAvailable : Semaphore.State Thread
  worker : Worker
  buffer : Buffer
  boxes : ℕ → SynchList.State Thread (Mail × ℕ)
  arrived : List Mail
  taken : List Mail

def new (network : NetworkInput) (buffer : Buffer) : State Thread where
  network := network
  messageAvailable := ⟨Semaphore.new 0,[],0,0⟩
  worker := .loop
  buffer := buffer
  boxes := fun _ => SynchList.new
  arrived := []
  taken := []

/-- The interrupt handler with the packet that `PollSocket` finds, the sections of the worker,
the beginning of a `Receive`, and the sections inside the list of a box. -/
inductive Action (Thread : Type)
  | poll (packet : Option Buffer) | P | resumeP | deliver
  | receive (t : Thread) (box : ℤ)
  | box (b : ℕ) (a : SynchList.Action Thread (Mail × ℕ))

def Action.isPoll : Action Thread → Bool
  | .poll _ => true
  | _ => false

namespace State

/-- `NetworkInput::CallBack`, which calls `PostOfficeInput::CallBack`. -/
def poll (hostName : NetworkAddress) (s : State Thread) (packet : Option Buffer) :
    Except Fault (State Thread) :=
  if s.network.inHdr.length ≠ 0#32 then
    return s
  else
    match packet with
    | none => return s
    | some packet => do
      let network ← s.network.CallBack hostName packet
      return { s with
        network := network
        messageAvailable := s.messageAvailable.callV
        arrived := s.arrived ++ [Mail.ofPacket packet] }

/-- The worker is at the head of its loop. -/
def AtLoop (postman : Thread) (s : State Thread) : Prop :=
  match s.worker with
  | .loop => True
  | .putting b => (s.boxes b).call postman = .none
  | _ => False

instance (postman : Thread) (s : State Thread) : Decidable (s.AtLoop postman) := by
  unfold AtLoop
  cases s.worker <;> infer_instance

def P (postman : Thread) (s : State Thread) : Except Fault (State Thread) := do
  require (s.AtLoop postman)
  let (sem,through) ← s.messageAvailable.callP postman
  return { s with messageAvailable := sem,worker := if through then .passed else .waiting }

def resumeP (postman : Thread) (s : State Thread) : Except Fault (State Thread) := do
  let (sem,through) ← s.messageAvailable.resumeP postman
  return { s with messageAvailable := sem,worker := if through then .passed else .waiting }

/-- The loop of `PostalDelivery` from the end of `P` to the lock of the box. -/
def deliver (numBoxes : ℤ) (postman : Thread) (s : State Thread) :
    Except Fault (State Thread) := do
  require (s.worker = .passed)
  let (pktHdr,buffer,network) := s.network.Receive s.buffer
  let mail ← PostOfficeInput.PostalDelivery numBoxes pktHdr buffer
  let b := mail.mailHdr.toAddr.toNat
  let box ← (s.boxes b).append postman (mail,s.taken.length)
  return { s with
    network := network
    worker := .putting b
    buffer := buffer
    boxes := Function.update s.boxes b box
    taken := s.taken ++ [mail] }

def receive (numBoxes : ℤ) (postman : Thread) (s : State Thread) (t : Thread) (box : ℤ) :
    Except Fault (State Thread) := do
  require (t ≠ postman)
  check (0 ≤ box ∧ box < numBoxes)
  let list ← (s.boxes box.toNat).removeFront t
  return { s with boxes := Function.update s.boxes box.toNat list }

/-- A section inside the list of a box; a `Receive` that gets its message there also makes its
last check. -/
def box (s : State Thread) (b : ℕ) (a : SynchList.Action Thread (Mail × ℕ)) :
    Except Fault (State Thread) := do
  require a.Internal
  let list ← SynchList.step (s.boxes b) a
  check (∀ item ∈ list.removed.drop (s.boxes b).removed.length,
    item.1.mailHdr.length.toNat ≤ MaxMailSize)
  return { s with boxes := Function.update s.boxes b list }

end State

variable (hostName : NetworkAddress) (numBoxes : ℤ) (postman : Thread)

def step (s : State Thread) : Action Thread → Except Fault (State Thread)
  | .poll packet => s.poll hostName packet
  | .P => s.P postman
  | .resumeP => s.resumeP postman
  | .deliver => s.deliver numBoxes postman
  | .receive t box => s.receive numBoxes postman t box
  | .box b a => s.box b a

/-- A packet as a sending machine makes it, for a box of this machine. -/
structure Deliverable (packet : Buffer) : Prop extends WellFormed packet where
  toAddr : (Header.fetch packet 0).toAddr = hostName
  hasBox : (Header.fetch packet Header.size).toAddr.toInt < numBoxes

/-- The packets in the socket come from sending machines. -/
def Action.Genuine : Action Thread → Prop
  | .poll (some packet) => Deliverable hostName numBoxes packet
  | _ => True

/-- `Receive` is called for a box that exists. -/
def Action.HasBox : Action Thread → Prop
  | .receive _ b => 0 ≤ b ∧ b < numBoxes
  | _ => True

/-- The messages for a box with their addresses. -/
def forBox (mails : List Mail) (b : ℕ) : List (Mail × ℕ) :=
  mails.zipIdx.filter fun m => m.1.mailHdr.toAddr.toNat = b

theorem forBox_snoc (mails : List Mail) (mail : Mail) (b : ℕ) :
    forBox (mails ++ [mail]) b = forBox mails b ++
      if mail.mailHdr.toAddr.toNat = b then [(mail,mails.length)] else [] := by
  simp only [forBox,List.zipIdx_append,List.filter_append,List.zipIdx_singleton,Nat.zero_add,
    List.filter_cons,List.filter_nil,decide_eq_true_eq]

theorem forBox_nodup (mails : List Mail) (b : ℕ) : ((forBox mails b).map Prod.snd).Nodup := by
  have hall : (mails.zipIdx.map Prod.snd).Nodup := by
    rw [List.zipIdx_map_snd]
    exact List.nodup_range'
  exact hall.sublist (List.filter_sublist.map _)

theorem forBox_map_fst (mails : List Mail) (b : ℕ) :
    (forBox mails b).map Prod.fst = mails.filter fun m => m.mailHdr.toAddr.toNat = b := by
  have hmap := List.filter_map (f := Prod.fst) (p := fun m : Mail => m.mailHdr.toAddr.toNat = b)
    (l := mails.zipIdx)
  rw [List.zipIdx_map_fst] at hmap
  rw [hmap]
  rfl

namespace State

/-- Signals to the worker that it has not used up by taking a packet. -/
def signals (s : State Thread) : ℤ :=
  s.messageAvailable.sem.value + if s.worker = .passed then 1 else 0

/-- The input buffer is empty, or it holds a packet the worker has been told about. -/
def Buffered (s : State Thread) : Prop :=
  (s.network.inHdr.length = 0#32 ∧ s.arrived = s.taken ∧ s.signals = 0) ∨
  ∃ packet, s.network.Holds packet ∧ Deliverable hostName numBoxes packet ∧
    s.arrived = s.taken ++ [Mail.ofPacket packet] ∧ s.signals = 1

structure Inv (s : State Thread) : Prop where
  semaphore : s.messageAvailable.Inv 0
  asleep : ∀ t, s.messageAvailable.InP t ↔ t = postman ∧ s.worker = .waiting
  buffered : s.Buffered hostName numBoxes
  boxes : ∀ b, (s.boxes b).Inv
  fed : ∀ b, (s.boxes b).Fed postman
  given : ∀ b, (s.boxes b).given postman = forBox s.taken b
  size : ∀ mail ∈ s.taken, mail.mailHdr.length.toNat ≤ MaxMailSize

variable {hostName numBoxes postman} {s s' : State Thread}

omit [DecidableEq Thread] in
theorem inv_initial {network : NetworkInput} {buffer : Buffer}
    (h : network.inHdr.length = 0#32) :
    (new network buffer : State Thread).Inv hostName numBoxes postman where
  semaphore := Semaphore.inv_initial 0 le_rfl (by norm_num)
  asleep t := by simp [new,Semaphore.State.InP,Semaphore.new]
  buffered := Or.inl ⟨h,rfl,by simp [signals,new,Semaphore.new]⟩
  boxes _ := SynchList.inv_initial
  fed _ := by simp [new,SynchList.State.Fed,SynchList.new]
  given _ := by simp [new,SynchList.State.given,SynchList.new,forBox,SynchList.Call.inHand]
  size := by simp [new]

theorem length_ne_of_holds {packet : Buffer} {n : NetworkInput} (hn : n.Holds packet)
    (h : WellFormed packet) : n.inHdr.length ≠ 0#32 := by
  intro he
  have hlength := h.length
  rw [← hn.inHdr,he] at hlength
  simp [Header.size] at hlength

section Inv

variable (h : s.Inv hostName numBoxes postman)
include h

omit [DecidableEq Thread] in
/-- What the worker's `P` does once it is called or the worker is dispatched again. -/
theorem Inv.passes {sem : Semaphore.State Thread} {through : Bool} (hsem : sem.Inv 0)
    (hp : s.messageAvailable.PassesP sem postman through) (hworker : s.worker ≠ .passed) :
    Inv hostName numBoxes postman { s with
      messageAvailable := sem
      worker := if through then .passed else .waiting } := by
  have hsignals : signals { s with
      messageAvailable := sem
      worker := if through then .passed else .waiting } = s.signals := by
    rcases hp with ⟨rfl,hv,hv',_⟩ | ⟨rfl,_,hv',_⟩
    · simp [signals,hv,hv',hworker]
    · simp [signals,hv',hworker]
  refine ⟨hsem,fun t => ?_,?_,h.boxes,h.fed,h.given,h.size⟩
  · rcases hp with ⟨rfl,_,_,hin⟩ | ⟨rfl,_,_,hin⟩
    · simp only [hin,h.asleep,Bool.false_eq_true,if_false,and_true]
      tauto
    · simp only [hin,h.asleep,if_true,reduceCtorEq,and_false,iff_false]
      tauto
  · unfold Buffered
    rw [hsignals]
    exact h.buffered

theorem Inv.P (hs : s.P postman = .ok s') : s'.Inv hostName numBoxes postman := by
  obtain ⟨hloop,hs⟩ := require_bind_ok.mp hs
  obtain ⟨⟨sem,through⟩,hcall,he⟩ := bind_ok.mp hs
  cases he
  refine h.passes (h.semaphore.callP hcall) (Semaphore.State.callP_passes h.semaphore hcall) ?_
  intro hp
  simp [AtLoop,hp] at hloop

theorem Inv.resumeP (hs : s.resumeP postman = .ok s') :
    s'.Inv hostName numBoxes postman := by
  obtain ⟨⟨sem,through⟩,hresume,he⟩ := bind_ok.mp hs
  cases he
  have hwoken := (require_bind_ok.mp hresume).1
  have hwaiting := ((h.asleep postman).mp (Or.inr hwoken)).2
  refine h.passes (h.semaphore.resumeP hresume)
    (Semaphore.State.resumeP_passes h.semaphore hresume) ?_
  simp [hwaiting]

omit [DecidableEq Thread] in
/-- A packet is read only into an empty buffer. -/
theorem Inv.poll {packet : Option Buffer}
    (hpacket : (Action.poll packet : Action Thread).Genuine hostName numBoxes)
    (hs : s.poll hostName packet = .ok s') : s'.Inv hostName numBoxes postman := by
  unfold State.poll at hs
  by_cases hlength : s.network.inHdr.length ≠ 0#32
  · rw [if_pos hlength] at hs
    cases hs
    exact h
  · rw [if_neg hlength] at hs
    cases packet with
    | none =>
      cases hs
      exact h
    | some packet =>
      obtain ⟨network,hnetwork,he⟩ := bind_ok.mp hs
      cases he
      obtain ⟨n,hn,hholds⟩ := CallBack_eq hpacket.toWellFormed s.network hostName hpacket.toAddr
      cases hnetwork.symm.trans hn
      rcases h.buffered with ⟨_,harrived,hsignals⟩ | ⟨old,hold,hdeliverable,_⟩
      · have hroom : s.messageAvailable.sem.value < 2 ^ 31 - 1 := by
          unfold signals at hsignals
          split at hsignals <;> omega
        obtain ⟨hvalue,hin⟩ := Semaphore.State.callV_spec h.semaphore hroom
        refine ⟨h.semaphore.callV hroom,fun t => (hin t).trans (h.asleep t),
          Or.inr ⟨packet,hholds,hpacket,by rw [harrived],?_⟩,h.boxes,h.fed,h.given,h.size⟩
        simp only [signals,hvalue] at hsignals ⊢
        omega
      · exact absurd (length_ne_of_holds hold hdeliverable.toWellFormed) hlength

omit [DecidableEq Thread] in
/-- A worker that is past `P` finds a packet in the input buffer. -/
theorem Inv.holds_of_passed (hp : s.worker = .passed) :
    ∃ packet, s.network.Holds packet ∧ Deliverable hostName numBoxes packet ∧
      s.arrived = s.taken ++ [Mail.ofPacket packet] ∧ s.messageAvailable.sem.value = 0 ∧
      PostOfficeInput.PostalDelivery numBoxes (s.network.Receive s.buffer).1
        (s.network.Receive s.buffer).2.1 = .ok (Mail.ofPacket packet) := by
  have hvalue := h.semaphore.nonneg
  rcases h.buffered with ⟨_,_,hsignals⟩ | ⟨packet,hholds,hpacket,harrived,hsignals⟩
  · simp only [signals,hp,if_true] at hsignals
    omega
  · simp only [signals,hp,if_true] at hsignals
    have hmail := PostalDelivery_eq hpacket.toWellFormed hholds numBoxes s.buffer
    rw [if_pos hpacket.hasBox] at hmail
    exact ⟨packet,hholds,hpacket,harrived,by omega,hmail⟩

/-- The worker empties the input buffer and begins to append the message to the list of its
box. -/
theorem Inv.deliver (hs : s.deliver numBoxes postman = .ok s') :
    s'.Inv hostName numBoxes postman := by
  obtain ⟨hp,hs⟩ := require_bind_ok.mp hs
  obtain ⟨packet,_,hpacket,harrived,hvalue,hdelivery⟩ := h.holds_of_passed hp
  obtain ⟨mail,hmail,hs⟩ := bind_ok.mp hs
  cases hmail.symm.trans hdelivery
  obtain ⟨box,hbox,he⟩ := bind_ok.mp hs
  cases he
  obtain ⟨hgiven,hfed,_⟩ := SynchList.append_given (h.fed _) hbox
  refine ⟨h.semaphore,fun t => ?_,Or.inl ⟨rfl,harrived,?_⟩,?_,?_,fun b => ?_,fun mail hmem => ?_⟩
  · simp [h.asleep,hp]
  · simp [signals,hvalue]
  · exact (Function.forall_update_iff s.boxes fun _ l => l.Inv).mpr
      ⟨(h.boxes _).append hbox,fun b _ => h.boxes b⟩
  · exact (Function.forall_update_iff s.boxes fun _ l => l.Fed postman).mpr
      ⟨hfed,fun b _ => h.fed b⟩
  · rw [forBox_snoc]
    by_cases hb : b = (Mail.ofPacket packet).mailHdr.toAddr.toNat
    · subst hb
      simp only [Function.update_self,if_true]
      rw [hgiven,h.given]
    · simp only [Function.update_of_ne hb,if_neg (Ne.symm hb),List.append_nil]
      exact h.given b
  · rcases List.mem_append.mp hmem with hmem | hmem
    · exact h.size mail hmem
    · rw [List.mem_singleton.mp hmem]
      exact hpacket.size

omit [DecidableEq Thread] in
/-- Sections inside the list of a box, and the beginning of a `Receive`. -/
theorem Inv.keeps {b : ℕ} {list : SynchList.State Thread (Mail × ℕ)}
    (hlist : list.Inv) (hk : SynchList.Keeps (s.boxes b) list postman) :
    Inv hostName numBoxes postman { s with boxes := Function.update s.boxes b list } := by
  refine ⟨h.semaphore,h.asleep,h.buffered,?_,?_,?_,h.size⟩
  · exact (Function.forall_update_iff s.boxes fun _ l => l.Inv).mpr
      ⟨hlist,fun c _ => h.boxes c⟩
  · exact (Function.forall_update_iff s.boxes fun _ l => l.Fed postman).mpr
      ⟨hk.fed,fun c _ => h.fed c⟩
  · exact (Function.forall_update_iff s.boxes fun c l => l.given postman = forBox s.taken c).mpr
      ⟨hk.given.trans (h.given b),fun c _ => h.given c⟩

theorem Inv.receive {t : Thread} {b : ℤ}
    (hs : s.receive numBoxes postman t b = .ok s') : s'.Inv hostName numBoxes postman := by
  obtain ⟨_,hs⟩ := require_bind_ok.mp hs
  obtain ⟨_,hs⟩ := check_bind_ok.mp hs
  obtain ⟨list,hlist,he⟩ := bind_ok.mp hs
  cases he
  exact h.keeps ((h.boxes _).removeFront hlist) (SynchList.removeFront_keeps (h.fed _) hlist)

theorem Inv.box {b : ℕ} {a : SynchList.Action Thread (Mail × ℕ)} (hs : s.box b a = .ok s') :
    s'.Inv hostName numBoxes postman := by
  obtain ⟨ha,hs⟩ := require_bind_ok.mp hs
  obtain ⟨list,hlist,hs⟩ := bind_ok.mp hs
  obtain ⟨_,he⟩ := check_bind_ok.mp hs
  cases he
  exact h.keeps (SynchList.inv_step (h.boxes b) hlist)
    (SynchList.internal_keeps ha (h.fed b) hlist)

theorem inv_step {a : Action Thread}
    (ha : a.Genuine hostName numBoxes) (hs : step hostName numBoxes postman s a = .ok s') :
    s'.Inv hostName numBoxes postman := by
  cases a with
  | poll packet => exact h.poll ha hs
  | P => exact h.P hs
  | resumeP => exact h.resumeP hs
  | deliver => exact h.deliver hs
  | receive t b => exact h.receive hs
  | box b a => exact h.box hs

/-! What holds of the boxes. -/

omit [DecidableEq Thread] in
/-- What has left a box and what is on its list are the first messages for it. -/
theorem Inv.removed_append (b : ℕ) :
    (s.boxes b).removed ++ (s.boxes b).list ++ ((s.boxes b).call postman).inHand =
      forBox s.taken b := by
  rw [← h.given b,SynchList.State.given,(h.boxes b).fifo]

omit [DecidableEq Thread] in
/-- A message is appended to a list that does not hold it. -/
theorem Inv.fresh {b : ℕ} {t : Thread} {item : Mail × ℕ}
    (hcall : (s.boxes b).call t = .appending item) : item ∉ (s.boxes b).list := by
  intro hmem
  have ht := h.fed b t item hcall
  subst ht
  have hnodup := (forBox_nodup s.taken b).of_map
  rw [← h.removed_append b,hcall] at hnodup
  exact (List.nodup_append.mp hnodup).2.2 item (List.mem_append_right _ hmem) item
    (List.mem_singleton_self item) rfl

omit [DecidableEq Thread] in
theorem Inv.size_of_list {b : ℕ} {item : Mail × ℕ}
    (hmem : item ∈ (s.boxes b).list) : item.1.mailHdr.length.toNat ≤ MaxMailSize := by
  have hall : item ∈ forBox s.taken b := by
    rw [← h.removed_append b]
    exact List.mem_append_left _ (List.mem_append_right _ hmem)
  have hfst := List.mem_map_of_mem (f := Prod.fst) (List.mem_of_mem_filter hall)
  rw [List.zipIdx_map_fst] at hfst
  exact h.size _ hfst

end Inv

/-- What `Receive` has returned from a box, in the order in which it was removed. -/
def received (s : State Thread) (b : ℕ) : List Mail := (s.boxes b).removed.map Prod.fst

omit [DecidableEq Thread] in
theorem Inv.taken_of_arrived (h : s.Inv hostName numBoxes postman) : s.taken <+: s.arrived := by
  rcases h.buffered with ⟨_,harrived,_⟩ | ⟨packet,_,_,harrived,_⟩
  · rw [harrived]
  · exact ⟨_,harrived.symm⟩

omit [DecidableEq Thread] in
theorem Inv.received_of_arrived (h : s.Inv hostName numBoxes postman) (b : ℕ) :
    s.received b <+: s.arrived.filter fun m => m.mailHdr.toAddr.toNat = b := by
  have hremoved : (s.boxes b).removed <+: forBox s.taken b := by
    rw [← h.removed_append b,List.append_assoc]
    exact List.prefix_append _ _
  have hmap := hremoved.map Prod.fst
  rw [forBox_map_fst] at hmap
  exact hmap.trans (h.taken_of_arrived.filter _)

omit [DecidableEq Thread] in
/-- No message is returned twice. -/
theorem Inv.received_nodup (h : s.Inv hostName numBoxes postman) (b : ℕ) :
    ((s.boxes b).removed.map Prod.snd).Nodup := by
  have hnodup := forBox_nodup s.taken b
  rw [← h.removed_append b,List.append_assoc,List.map_append] at hnodup
  exact (List.nodup_append.mp hnodup).1

/-! When packets are read. -/

omit [DecidableEq Thread] in
theorem poll_none (hs : s.poll hostName none = .ok s') : s' = s := by
  unfold State.poll at hs
  split_ifs at hs <;> cases hs <;> rfl

omit [DecidableEq Thread] in
theorem poll_full {packet : Option Buffer} (hlength : s.network.inHdr.length ≠ 0#32)
    (hs : s.poll hostName packet = .ok s') : s' = s := by
  unfold State.poll at hs
  rw [if_pos hlength] at hs
  cases hs
  rfl

omit [DecidableEq Thread] in
theorem arrived_poll {packet : Buffer} (hlength : ¬ s.network.inHdr.length ≠ 0#32)
    (hs : s.poll hostName (some packet) = .ok s') :
    s'.arrived = s.arrived ++ [Mail.ofPacket packet] := by
  unfold State.poll at hs
  rw [if_neg hlength] at hs
  obtain ⟨_,_,he⟩ := bind_ok.mp hs
  cases he
  rfl

/-- Only the interrupt handler reads packets. -/
theorem arrived_step {a : Action Thread} (ha : ¬ a.isPoll)
    (hs : step hostName numBoxes postman s a = .ok s') : s'.arrived = s.arrived := by
  cases a with
  | poll packet => exact absurd rfl ha
  | P =>
    obtain ⟨_,hs⟩ := require_bind_ok.mp hs
    obtain ⟨_,_,he⟩ := bind_ok.mp hs
    cases he
    rfl
  | resumeP =>
    obtain ⟨_,_,he⟩ := bind_ok.mp hs
    cases he
    rfl
  | deliver =>
    obtain ⟨_,hs⟩ := require_bind_ok.mp hs
    obtain ⟨_,_,hs⟩ := bind_ok.mp hs
    obtain ⟨_,_,he⟩ := bind_ok.mp hs
    cases he
    rfl
  | receive t b =>
    obtain ⟨_,hs⟩ := require_bind_ok.mp hs
    obtain ⟨_,hs⟩ := check_bind_ok.mp hs
    obtain ⟨_,_,he⟩ := bind_ok.mp hs
    cases he
    rfl
  | box b a =>
    obtain ⟨_,hs⟩ := require_bind_ok.mp hs
    obtain ⟨_,_,hs⟩ := bind_ok.mp hs
    obtain ⟨_,he⟩ := check_bind_ok.mp hs
    cases he
    rfl

theorem Inv.step_not_assertion (h : s.Inv hostName numBoxes postman) {a : Action Thread}
    (ha : a.Genuine hostName numBoxes) (hbox : a.HasBox numBoxes) :
    step hostName numBoxes postman s a ≠ .error .assertion := by
  intro hs
  cases a with
  | poll packet =>
    simp only [step,State.poll] at hs
    by_cases hlength : s.network.inHdr.length ≠ 0#32
    · rw [if_pos hlength] at hs
      cases hs
    · rw [if_neg hlength] at hs
      cases packet with
      | none => cases hs
      | some packet =>
        obtain ⟨n,hn,_⟩ := CallBack_eq ha.toWellFormed s.network hostName ha.toAddr
        cases (bind_pure_assertion.mp hs).symm.trans hn
  | P =>
    obtain ⟨_,hs⟩ := require_bind_assertion.mp hs
    exact s.messageAvailable.callP_not_assertion postman (bind_pure_assertion.mp hs)
  | resumeP =>
    exact Semaphore.State.resumeP_not_assertion h.semaphore postman (bind_pure_assertion.mp hs)
  | deliver =>
    obtain ⟨hp,hs⟩ := require_bind_assertion.mp hs
    obtain ⟨packet,_,_,_,_,hdelivery⟩ := h.holds_of_passed hp
    rcases bind_assertion.mp hs with hs | ⟨mail,_,hs⟩
    · cases hs.symm.trans hdelivery
    · exact (h.boxes _).step_not_assertion (.append postman (mail,s.taken.length))
        (bind_pure_assertion.mp hs)
  | receive t b =>
    obtain ⟨_,hs⟩ := require_bind_assertion.mp hs
    have hs := check_bind_assertion.mp hs hbox
    exact (h.boxes _).step_not_assertion (.removeFront t) (bind_pure_assertion.mp hs)
  | box b a =>
    obtain ⟨hinternal,hs⟩ := require_bind_assertion.mp hs
    rcases bind_assertion.mp hs with hs | ⟨list,hlist,hs⟩
    · exact (h.boxes b).step_not_assertion a hs
    · obtain ⟨items,hitems,hmem⟩ := (SynchList.internal_keeps hinternal (h.fed b) hlist).removed
      have hsize : ∀ item ∈ list.removed.drop (s.boxes b).removed.length,
          item.1.mailHdr.length.toNat ≤ MaxMailSize := by
        rw [hitems,List.drop_left]
        exact fun item hi => h.size_of_list (hmem item hi)
      cases check_bind_assertion.mp hs hsize

end State
end PostOffice
end NachOS
