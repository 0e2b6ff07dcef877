import NachOS.PostOffice
import NachOS.SynchDevice

/-! Machines that send one another messages (network/post.cc, machine/network.cc).  Between a
sender and a receiver the sockets keep the order of the packets and may lose some.  A machine
calls `Send` and `Receive` from any number of threads; that one thread is in both at a time is
not excluded. -/
namespace NachOS

open StateMachine Memory
open scoped List

namespace Network

variable {Thread : Type} [DecidableEq Thread] (numBoxes : NetworkAddress → ℤ)

/-- The arguments of a `Send` to a box that exists, and the memory that `Send` allocates. -/
structure Letter where
  pktHdr : PacketHeader
  mailHdr : MailHeader
  data : Buffer
  buffer : Buffer
  wire : Buffer
  length : mailHdr.length.toNat ≤ MaxMailSize
  nonneg : 0 ≤ mailHdr.toAddr.toInt
  hasBox : mailHdr.toAddr.toInt < numBoxes pktHdr.toAddr

variable {numBoxes}

/-- The message as the machine `hostName` sends it. -/
def Letter.mail (l : Letter numBoxes) (hostName : NetworkAddress) : Mail :=
  .sent hostName l.pktHdr l.mailHdr l.data

def Letter.transmit (l : Letter numBoxes) (hostName : NetworkAddress) (sendBusy : Bool) :
    Except Fault Buffer :=
  PostOfficeOutput.transmit hostName sendBusy l.pktHdr l.mailHdr l.data l.buffer l.wire

theorem Letter.transmit_ok (l : Letter numBoxes) (hostName : NetworkAddress) :
    ∃ packet, l.transmit hostName false = .ok packet := by
  have hadd := length_add l.length
  have hmax : l.mailHdr.length.toNat + Header.size ≤ MaxPacketSize :=
    Nat.add_le_of_le_sub (by decide) l.length
  refine ⟨_,bind_ok.mpr ⟨_,check_bind_ok.mpr ⟨l.length,check_bind_ok.mpr ⟨l.nonneg,rfl⟩⟩,
    check_bind_ok.mpr ⟨⟨rfl,?_,?_,rfl⟩,rfl⟩⟩⟩
  · exact hadd ▸ Nat.add_pos_right _ (by decide)
  · exact hadd ▸ hmax

/-- The packet of a letter holds its message. -/
theorem Letter.packet (l : Letter numBoxes) {hostName : NetworkAddress} {sendBusy : Bool}
    {packet : Buffer} (h : l.transmit hostName sendBusy = .ok packet) :
    Mail.ofPacket packet = l.mail hostName ∧
      PostOffice.Deliverable l.pktHdr.toAddr (numBoxes l.pktHdr.toAddr) packet := by
  obtain ⟨hmail,hpacket⟩ := packet_of_sent h
  have hto : (Header.fetch packet 0).toAddr = l.pktHdr.toAddr :=
    congrArg (fun m : Mail => m.pktHdr.toAddr) hmail
  have hheader : Header.fetch packet Header.size = l.mailHdr := congrArg Mail.mailHdr hmail
  exact ⟨hmail,hpacket,hto,hheader ▸ l.hasBox⟩

/-- `NetworkOutput`, with `sendBusy` as its state. -/
def device (hostName : NetworkAddress) : SynchDevice.Device Bool (Letter numBoxes) Buffer where
  request sendBusy l := do
    let packet ← l.transmit hostName sendBusy
    return (packet,sendBusy)
  done _ := false
  Idle sendBusy := sendBusy = false
  done_idle _ := rfl
  request_ok sendBusy l h := by
    obtain ⟨packet,hpacket⟩ := l.transmit_ok hostName
    exact ⟨_,bind_ok.mpr ⟨packet,h ▸ hpacket,rfl⟩⟩

/-- One machine. -/
structure Host (Thread : Type) (numBoxes : NetworkAddress → ℤ) where
  out : SynchDevice.State Thread Bool (Letter numBoxes) Buffer
  office : PostOffice.State Thread

/-- `wire f m` holds the packets on their way from machine `f` to machine `m`. -/
structure State (Thread : Type) (numBoxes : NetworkAddress → ℤ) where
  host : NetworkAddress → Host Thread numBoxes
  wire : NetworkAddress → NetworkAddress → List Buffer

/-- A section of the sending side, which may lose what it sends, the loss of a packet under way,
the polling interrupt with the machine whose packet it finds, and the other sections of the
receiving side. -/
inductive Action (Thread : Type) (numBoxes : NetworkAddress → ℤ)
  | send (f : NetworkAddress) (a : SynchDevice.Action Thread (Letter numBoxes)) (lost : Bool)
  | lose (f m : NetworkAddress) (i : ℕ)
  | poll (m : NetworkAddress) (f : Option NetworkAddress)
  | office (m : NetworkAddress) (a : PostOffice.Action Thread)

/-- `Receive` is called for boxes that exist. -/
def Action.HasBox : Action Thread numBoxes → Prop
  | .office m a => a.HasBox (numBoxes m)
  | _ => True

/-- The calls of `NetworkOutput::Send` to one machine. -/
def handedTo (m : NetworkAddress) (log : List (Thread × Letter numBoxes × Buffer)) :
    List (Letter numBoxes × Buffer) :=
  (log.map Prod.snd).filter fun e => e.1.pktHdr.toAddr = m

omit [DecidableEq Thread] in
theorem handedTo_append (m : NetworkAddress) (log sent : List (Thread × Letter numBoxes × Buffer)) :
    handedTo m (log ++ sent) = handedTo m log ++ handedTo m sent := by
  rw [handedTo,List.map_append,List.filter_append]
  rfl

namespace State

def setOut (s : State Thread numBoxes) (f : NetworkAddress)
    (out : SynchDevice.State Thread Bool (Letter numBoxes) Buffer) : State Thread numBoxes :=
  { s with host := Function.update s.host f { s.host f with out := out } }

def setOffice (s : State Thread numBoxes) (m : NetworkAddress) (office : PostOffice.State Thread) :
    State Thread numBoxes :=
  { s with host := Function.update s.host m { s.host m with office := office } }

def setWire (s : State Thread numBoxes) (f m : NetworkAddress) (packets : List Buffer) :
    State Thread numBoxes :=
  { s with wire := Function.update s.wire f (Function.update (s.wire f) m packets) }

variable (s : State Thread numBoxes) (f m g n : NetworkAddress)

omit [DecidableEq Thread] in
@[simp] theorem out_setOut (out : SynchDevice.State Thread Bool (Letter numBoxes) Buffer) :
    ((s.setOut f out).host g).out = if g = f then out else (s.host g).out := by
  by_cases hg : g = f <;> simp [setOut,hg]

omit [DecidableEq Thread] in
@[simp] theorem office_setOut (out : SynchDevice.State Thread Bool (Letter numBoxes) Buffer) :
    ((s.setOut f out).host g).office = (s.host g).office := by
  by_cases hg : g = f <;> simp [setOut,hg]

omit [DecidableEq Thread] in
@[simp] theorem out_setOffice (office : PostOffice.State Thread) :
    ((s.setOffice m office).host g).out = (s.host g).out := by
  by_cases hg : g = m <;> simp [setOffice,hg]

omit [DecidableEq Thread] in
@[simp] theorem office_setOffice (office : PostOffice.State Thread) :
    ((s.setOffice m office).host n).office = if n = m then office else (s.host n).office := by
  by_cases hn : n = m <;> simp [setOffice,hn]

omit [DecidableEq Thread] in
@[simp] theorem wire_setOffice (office : PostOffice.State Thread) :
    (s.setOffice m office).wire = s.wire := rfl

omit [DecidableEq Thread] in
theorem wire_setWire (packets : List Buffer) :
    (s.setWire f m packets).wire g n = if g = f ∧ n = m then packets else s.wire g n := by
  by_cases hg : g = f <;> by_cases hn : n = m <;> simp [setWire,hg,hn]

def send (s : State Thread numBoxes) (f : NetworkAddress)
    (a : SynchDevice.Action Thread (Letter numBoxes)) (lost : Bool) :
    Except Fault (State Thread numBoxes) := do
  let out ← SynchDevice.step (device f) (s.host f).out a
  let sent := if lost then [] else out.log.drop (s.host f).out.log.length
  return { s.setOut f out with
    wire := Function.update s.wire f fun m => s.wire f m ++ (handedTo m sent).map Prod.snd }

/-- Nothing is read from the socket while a packet is in the input buffer. -/
def poll (s : State Thread numBoxes) (m : NetworkAddress) :
    Option NetworkAddress → Except Fault (State Thread numBoxes)
  | none => do return s.setOffice m (← (s.host m).office.poll m none)
  | some f =>
    match s.wire f m with
    | [] => .error .blocked
    | packet :: packets => do
      let office ← (s.host m).office.poll m (some packet)
      if (s.host m).office.network.inHdr.length ≠ 0#32 then
        return s.setOffice m office
      else
        return (s.setOffice m office).setWire f m packets

end State

variable (postman : Thread)

def step (s : State Thread numBoxes) :
    Action Thread numBoxes → Except Fault (State Thread numBoxes)
  | .send f a lost => s.send f a lost
  | .lose f m i => return s.setWire f m ((s.wire f m).eraseIdx i)
  | .poll m f => s.poll m f
  | .office m a => do
    require (¬ a.isPoll)
    let office ← PostOffice.step m (numBoxes m) postman (s.host m).office a
    return s.setOffice m office

def machine : Machine (State Thread numBoxes) (Action Thread numBoxes) where
  initial s := (∀ f, (s.host f).out = SynchDevice.new false) ∧
    (∀ m, ∃ network buffer, network.inHdr.length = 0#32 ∧
      (s.host m).office = PostOffice.new network buffer) ∧
    ∀ f m, s.wire f m = []
  step := step postman

/-- The messages that machine `f` has handed to the network for machine `m`, in order. -/
def State.handed (s : State Thread numBoxes) (f m : NetworkAddress) : List Mail :=
  (handedTo m (s.host f).out.log).map fun e => e.1.mail f

namespace State

/-- What has arrived from a machine, followed by what is under way, is part of what was handed
to the network, in that order. -/
structure Inv (s : State Thread numBoxes) : Prop where
  out : ∀ f, (s.host f).out.Inv (device f)
  office : ∀ m, (s.host m).office.Inv m (numBoxes m) postman
  wire : ∀ f m, ∀ packet ∈ s.wire f m, PostOffice.Deliverable m (numBoxes m) packet ∧
    (Mail.ofPacket packet).pktHdr.fromAddr = f
  order : ∀ f m, ((s.host m).office.arrived.filter fun mail => mail.pktHdr.fromAddr = f) ++
    (s.wire f m).map Mail.ofPacket <+ s.handed f m

variable {postman} {s s' : State Thread numBoxes}

theorem inv_initial (h : (machine postman).initial s) : s.Inv postman := by
  obtain ⟨hout,hoffice,hwire⟩ := h
  refine ⟨fun f => ?_,fun m => ?_,fun f m packet hp => ?_,fun f m => ?_⟩
  · rw [hout f]
    exact SynchDevice.State.inv_initial rfl
  · obtain ⟨network,buffer,hlength,ho⟩ := hoffice m
    rw [ho]
    exact PostOffice.State.inv_initial hlength
  · rw [hwire f m] at hp
    cases hp
  · obtain ⟨network,buffer,hlength,ho⟩ := hoffice m
    simp [hwire f m,ho,PostOffice.new]

/-- The packets hold the messages of their letters, as machine `f` sends them. -/
def Sent (f : NetworkAddress) (entries : List (Thread × Letter numBoxes × Buffer)) : Prop :=
  ∀ e ∈ entries.map Prod.snd, Mail.ofPacket e.2 = e.1.mail f ∧
    PostOffice.Deliverable e.1.pktHdr.toAddr (numBoxes e.1.pktHdr.toAddr) e.2

omit [DecidableEq Thread] in
theorem Sent.handedTo {f : NetworkAddress} {entries : List (Thread × Letter numBoxes × Buffer)}
    (h : Sent f entries) {m : NetworkAddress} {e : Letter numBoxes × Buffer}
    (he : e ∈ handedTo m entries) :
    Mail.ofPacket e.2 = e.1.mail f ∧ PostOffice.Deliverable m (numBoxes m) e.2 := by
  obtain ⟨he,hto⟩ := List.mem_filter.mp he
  have hto : e.1.pktHdr.toAddr = m := of_decide_eq_true hto
  obtain ⟨hmail,hpacket⟩ := h e he
  exact ⟨hmail,hto ▸ hpacket⟩

/-- What a section of the sending side adds to the log. -/
theorem sent_step {f : NetworkAddress}
    {out out' : SynchDevice.State Thread Bool (Letter numBoxes) Buffer}
    {a : SynchDevice.Action Thread (Letter numBoxes)}
    (h : SynchDevice.step (device f) out a = .ok out') :
    ∃ sent, out'.log = out.log ++ sent ∧ Sent f sent := by
  rcases SynchDevice.device_step h with ⟨hlog,_⟩ | ⟨t,l,packet,hrequest,hlog⟩
  · exact ⟨[],by rw [hlog,List.append_nil],by simp [Sent]⟩
  · obtain ⟨_,htransmit,hpacket⟩ := bind_ok.mp hrequest
    cases (Prod.mk.inj (Except.ok.inj hpacket)).1
    refine ⟨[(t,l,packet)],hlog,fun e he => ?_⟩
    cases List.mem_singleton.mp he
    exact l.packet htransmit

theorem Inv.send {f : NetworkAddress} {a : SynchDevice.Action Thread (Letter numBoxes)}
    {lost : Bool} (h : s.Inv postman) (hs : s.send f a lost = .ok s') : s'.Inv postman := by
  obtain ⟨out,hout,he⟩ := bind_ok.mp hs
  cases he
  obtain ⟨sent,hlog,hsent⟩ := sent_step hout
  generalize hentries : (if lost then [] else out.log.drop (s.host f).out.log.length) = entries
  have hpart : entries <+ sent := by
    rw [← hentries,hlog,List.drop_left]
    cases lost with
    | true => exact List.nil_sublist _
    | false => exact List.Sublist.refl _
  have hof : Sent f entries := fun e he => hsent e ((hpart.map Prod.snd).subset he)
  refine ⟨fun g => ?_,fun m => ?_,fun g m packet hp => ?_,fun g m => ?_⟩
  · simp only [out_setOut]
    split_ifs with hg
    · subst hg
      exact SynchDevice.State.inv_step (h.out g) hout
    · exact h.out g
  · simp only [office_setOut]
    exact h.office m
  · by_cases hg : g = f
    · subst hg
      simp only [Function.update_self,List.mem_append] at hp
      rcases hp with hp | hp
      · exact h.wire g m packet hp
      · obtain ⟨e,he,rfl⟩ := List.mem_map.mp hp
        obtain ⟨hmail,hpacket⟩ := hof.handedTo he
        exact ⟨hpacket,by rw [hmail]; rfl⟩
    · simp only [Function.update_of_ne hg] at hp
      exact h.wire g m packet hp
  · by_cases hg : g = f
    · subst hg
      have hmap : ((handedTo m entries).map Prod.snd).map Mail.ofPacket =
          (handedTo m entries).map fun e => e.1.mail g := by
        rw [List.map_map]
        exact List.map_congr_left fun e he => (hof.handedTo he).1
      have hmore : handedTo m entries <+ handedTo m sent := (hpart.map Prod.snd).filter _
      simp only [office_setOut,out_setOut,if_true,Function.update_self,handed,List.map_append,
        hlog,hmap]
      rw [← List.append_assoc,handedTo_append,List.map_append]
      exact (h.order g m).append (hmore.map _)
    · simp only [office_setOut,out_setOut,if_neg hg,handed,Function.update_of_ne hg]
      exact h.order g m

theorem Inv.lose (h : s.Inv postman) (f m : NetworkAddress) (i : ℕ) :
    (s.setWire f m ((s.wire f m).eraseIdx i)).Inv postman := by
  have hwire : ∀ g n, (s.setWire f m ((s.wire f m).eraseIdx i)).wire g n <+ s.wire g n := by
    intro g n
    rw [wire_setWire]
    split_ifs with he
    · rw [he.1,he.2]
      exact List.eraseIdx_sublist _ _
    · exact List.Sublist.refl _
  refine ⟨h.out,h.office,fun g n packet hp => ?_,fun g n => ?_⟩
  · exact h.wire g n packet ((hwire g n).subset hp)
  · exact ((List.Sublist.refl _).append ((hwire g n).map _)).trans (h.order g n)

/-- Sections of the receiving side: what they take from the wires has arrived. -/
theorem Inv.receives {m : NetworkAddress} {office : PostOffice.State Thread}
    {wire : NetworkAddress → NetworkAddress → List Buffer} (h : s.Inv postman)
    (hoffice : office.Inv m (numBoxes m) postman) (hwire : ∀ f n, wire f n <+ s.wire f n)
    (harrived : ∀ f, (office.arrived.filter fun mail => mail.pktHdr.fromAddr = f) ++
      (wire f m).map Mail.ofPacket <+
      ((s.host m).office.arrived.filter fun mail => mail.pktHdr.fromAddr = f) ++
        (s.wire f m).map Mail.ofPacket) :
    Inv postman { s.setOffice m office with wire := wire } := by
  refine ⟨fun f => ?_,fun n => ?_,fun f n packet hp => ?_,fun f n => ?_⟩
  · simp only [out_setOffice]
    exact h.out f
  · simp only [office_setOffice]
    split_ifs with hn
    · exact hn ▸ hoffice
    · exact h.office n
  · exact h.wire f n packet ((hwire f n).subset hp)
  · simp only [handed,out_setOffice,office_setOffice]
    split_ifs with hn
    · rw [hn]
      exact (harrived f).trans (h.order f m)
    · exact ((List.Sublist.refl _).append ((hwire f n).map _)).trans (h.order f n)

theorem Inv.poll {m : NetworkAddress} {f : Option NetworkAddress} (h : s.Inv postman)
    (hs : s.poll m f = .ok s') : s'.Inv postman := by
  cases f with
  | none =>
    obtain ⟨office,hoffice,he⟩ := bind_ok.mp hs
    cases he
    refine h.receives (PostOffice.State.inv_step (a := .poll none) (h.office m) trivial hoffice)
      (fun _ _ => List.Sublist.refl _)
      fun g => ?_
    rw [PostOffice.State.poll_none hoffice]
  | some f =>
    unfold State.poll at hs
    cases hwire : s.wire f m with
    | nil => simp [hwire] at hs
    | cons packet packets =>
      simp only [hwire] at hs
      obtain ⟨office,hoffice,hs⟩ := bind_ok.mp hs
      obtain ⟨hpacket,hfrom⟩ := h.wire f m packet (by simp [hwire])
      have hinv := PostOffice.State.inv_step (a := .poll (some packet)) (h.office m) hpacket hoffice
      by_cases hlength : (s.host m).office.network.inHdr.length ≠ 0#32
      · rw [if_pos hlength] at hs
        cases hs
        refine h.receives hinv (fun _ _ => List.Sublist.refl _) fun g => ?_
        rw [PostOffice.State.poll_full hlength hoffice]
      · rw [if_neg hlength] at hs
        cases hs
        refine h.receives hinv (fun g n => ?_) fun g => ?_
        · change ((s.setOffice m office).setWire f m packets).wire g n <+ s.wire g n
          rw [wire_setWire]
          split_ifs with he
          · rw [he.1,he.2,hwire]
            exact List.sublist_cons_self _ _
          · exact List.Sublist.refl _
        · change _ ++ (((s.setOffice m office).setWire f m packets).wire g m).map _ <+ _
          rw [PostOffice.State.arrived_poll hlength hoffice,wire_setWire]
          by_cases hg : g = f
          · subst hg
            simp [hwire,hfrom]
          · simp [hg,hfrom,Ne.symm hg]

omit [DecidableEq Thread] in
theorem genuine_of_not_isPoll {m : NetworkAddress} {a : PostOffice.Action Thread}
    (ha : ¬ a.isPoll) : a.Genuine m (numBoxes m) := by
  cases a with
  | poll packet => exact absurd rfl ha
  | _ => trivial

theorem Inv.office_step {m : NetworkAddress} {a : PostOffice.Action Thread} (h : s.Inv postman)
    (hs : step postman s (.office m a) = .ok s') : s'.Inv postman := by
  obtain ⟨ha,hs⟩ := require_bind_ok.mp hs
  obtain ⟨office,hoffice,he⟩ := bind_ok.mp hs
  cases he
  refine h.receives
    (PostOffice.State.inv_step (h.office m) (genuine_of_not_isPoll ha) hoffice)
    (fun _ _ => List.Sublist.refl _) fun f => ?_
  rw [PostOffice.State.arrived_step ha hoffice]

theorem inv_step {a : Action Thread numBoxes} (h : s.Inv postman)
    (hs : step postman s a = .ok s') : s'.Inv postman := by
  cases a with
  | send f a lost => exact h.send hs
  | lose f m i =>
    cases hs
    exact h.lose f m i
  | poll m f => exact h.poll hs
  | office m a => exact h.office_step hs

theorem reachable_inv (h : (machine postman).Reachable s) : s.Inv postman :=
  h.invariant (fun _ => inv_initial) fun _ _ _ => inv_step

theorem Inv.step_not_assertion (h : s.Inv postman) {a : Action Thread numBoxes} (ha : a.HasBox) :
    step postman s a ≠ .error .assertion := by
  intro hs
  cases a with
  | send f a lost =>
    exact (h.out f).step_not_assertion a (bind_pure_assertion.mp hs)
  | lose f m i => cases hs
  | poll m f =>
    simp only [step,State.poll] at hs
    cases f with
    | none =>
      exact (h.office m).step_not_assertion (a := .poll none) trivial trivial
        (bind_pure_assertion.mp hs)
    | some f =>
      cases hwire : s.wire f m with
      | nil => simp [hwire] at hs
      | cons packet packets =>
        simp only [hwire] at hs
        have hpacket := (h.wire f m packet (by simp [hwire])).1
        rcases bind_assertion.mp hs with hs | ⟨_,_,hs⟩
        · exact (h.office m).step_not_assertion (a := .poll (some packet)) hpacket trivial hs
        · split_ifs at hs <;> cases hs
  | office m a =>
    obtain ⟨hpoll,hs⟩ := require_bind_assertion.mp hs
    exact (h.office m).step_not_assertion (genuine_of_not_isPoll hpoll) ha
      (bind_pure_assertion.mp hs)

/-- The messages for one box among those that were handed to the network. -/
def handedToBox (s : State Thread numBoxes) (f m : NetworkAddress) (b : ℕ) : List Mail :=
  (s.handed f m).filter fun mail => mail.mailHdr.toAddr.toNat = b

theorem Inv.received_sublist (h : s.Inv postman) (f m : NetworkAddress) (b : ℕ) :
    (((s.host m).office.received b).filter fun mail => mail.pktHdr.fromAddr = f) <+
      s.handedToBox f m b := by
  have hreceived := ((h.office m).received_of_arrived b).sublist.filter fun mail =>
    mail.pktHdr.fromAddr = f
  rw [List.filter_comm] at hreceived
  have harrived := (List.sublist_append_left _ _).trans (h.order f m)
  exact hreceived.trans (harrived.filter _)

end State

/-- In every interleaving of the threads and the interrupts of all machines, with any losses,
the messages that `Receive` has returned from a box and that come from one machine are messages
that machine handed to the network for the box, whole, in that order and each at most once.
A packet that was read stays in the input buffer until the worker has taken it, a message is
appended to a list that does not hold it, and no assertion fails. -/
theorem delivered_in_order (s : State Thread numBoxes) (h : (machine postman).Reachable s) :
    (∀ f m b, (((s.host m).office.received b).filter fun mail => mail.pktHdr.fromAddr = f) <+
      s.handedToBox f m b) ∧
    (∀ m b, (((s.host m).office.boxes b).removed.map Prod.snd).Nodup) ∧
    (∀ m, ((s.host m).office.network.inHdr.length = 0#32 ∧
        (s.host m).office.arrived = (s.host m).office.taken) ∨
      ∃ packet, (s.host m).office.network.Holds packet ∧
        (s.host m).office.arrived = (s.host m).office.taken ++ [Mail.ofPacket packet]) ∧
    (∀ m b t item, ((s.host m).office.boxes b).call t = .appending item →
      item ∉ ((s.host m).office.boxes b).list) ∧
    ∀ a : Action Thread numBoxes, a.HasBox → step postman s a ≠ .error .assertion := by
  have hs := State.reachable_inv h
  refine ⟨hs.received_sublist,fun m b => (hs.office m).received_nodup b,fun m => ?_,
    fun m b t item hcall => (hs.office m).fresh hcall,fun a ha => hs.step_not_assertion ha⟩
  rcases (hs.office m).buffered with ⟨hlength,harrived,_⟩ | ⟨packet,hholds,_,harrived,_⟩
  · exact Or.inl ⟨hlength,harrived⟩
  · exact Or.inr ⟨packet,hholds,harrived⟩

/-- Machines with ten boxes that have just been started. -/
def booted : State Bool fun _ => 10 :=
  ⟨fun _ => ⟨SynchDevice.new false,PostOffice.new .new fun _ => 0⟩,fun _ _ => []⟩

def greeting : Letter fun _ => 10 where
  pktHdr := ⟨1,0,0⟩
  mailHdr := ⟨9,3,2⟩
  data := ofList [72,105]
  buffer := fun _ => 0
  wire := fun _ => 0
  length := by decide
  nonneg := by decide
  hasBox := by decide

/-- A thread of machine 0 sends two messages, of which the first is lost; the worker of
machine 1 delivers the other one and a thread there receives it. -/
def exchange : List (Action Bool fun _ => 10) :=
  [.send 0 (.call false greeting) false,.send 0 (.setHolder false) false,
    .send 0 (.request false) true,.send 0 (.P false) false,.send 0 (.interrupt 0) false,
    .send 0 (.resumeP false) false,.send 0 (.release false) false,
    .send 0 (.call false greeting) false,.send 0 (.setHolder false) false,
    .send 0 (.request false) false,.poll 1 (some 0),.office 1 .P,.office 1 .deliver,
    .office 1 (.box 9 (.enter true)),.office 1 (.receive false 9),.office 1 (.box 9 (.enter false))]

theorem delivered_in_order_exchange : ∃ s, (machine true).run booted exchange = .ok s ∧
    (s.host 1).office.received 9 = [⟨⟨1,0,14⟩,⟨9,3,2⟩,[72,105]⟩] ∧
    (((s.host 1).office.received 9).filter fun mail => mail.pktHdr.fromAddr = 0) <+
      s.handedToBox 0 1 9 := by
  refine ⟨_,rfl,rfl,(delivered_in_order true _ ?_).1 0 1 9⟩
  have hbooted : (machine true).Reachable booted :=
    .start ⟨fun _ => rfl,fun _ => ⟨.new,fun _ => 0,rfl,rfl⟩,fun _ _ => rfl⟩
  exact hbooted.run (show (machine true).run booted exchange = .ok _ from rfl)

end Network
end NachOS
