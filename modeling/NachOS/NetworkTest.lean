import NachOS.Network

/-! `Kernel::NetworkTest` (threads/kernel.cc) on the machines 0 and 1: each sends a message to
the other one, waits for the other one's message, acknowledges it and waits for the
acknowledgement.  On every machine run the main thread, which is in `NetworkTest`, and the postal
worker. -/
namespace NachOS

open StateMachine Memory
open scoped List

namespace NetworkTest

inductive Thread
  | main | postman
  deriving DecidableEq, Repr

/-- `Kernel::Initialize` makes `PostOfficeInput(10)`. -/
abbrev numBoxes : NetworkAddress → ℤ := fun _ => 10

/-- Where the main thread is: before the first `Send`, in or after each of the two `Send` and the
two `Receive`, and at the end. -/
inductive Stage
  | start | sending | receiving | acking | awaiting | done
  deriving DecidableEq, Repr

/-- The message of a machine has been received on the machine at this stage. -/
def Stage.Got : Stage → Prop
  | .start | .sending | .receiving => False
  | .acking | .awaiting | .done => True

/-- A line on the screen: the text, `inPktHdr.from` and `inMailHdr.from`. -/
structure Line where
  text : List Byte
  fromAddr : NetworkAddress
  box : BitVec 32
  deriving DecidableEq, Repr

/-- The local variables that `Receive` writes to, and the screen. -/
structure Test where
  stage : Stage
  inPktHdr : PacketHeader
  inMailHdr : MailHeader
  buffer : Buffer
  printed : List Line

/-- `Receive` returns a message, which is printed; `<<` stops at the end of the string. -/
def Test.got (t : Test) (mail : Mail) (stage : Stage) : Test :=
  let buffer := bcopy (ofList mail.data) 0 t.buffer 0 mail.mailHdr.length.toNat
  { stage := stage
    inPktHdr := mail.pktHdr
    inMailHdr := mail.mailHdr
    buffer := buffer
    printed := t.printed ++
      [⟨cString buffer 0 MaxMailSize,mail.pktHdr.fromAddr,mail.mailHdr.fromAddr⟩] }

def farHost (hostName : NetworkAddress) : NetworkAddress := if hostName = 0 then 1 else 0

def chars (s : List Char) : List Byte := s.map fun c => BitVec.ofNat 8 c.toNat

def data : List Byte := chars ['H','e','l','l','o',' ','t','h','e','r','e','!']

def ack : List Byte := chars ['G','o','t',' ','i','t','!']

/-- What is not set in `outPktHdr`, and the memory that `Send` allocates. -/
structure Unset where
  pktHdr : PacketHeader
  buffer : Buffer
  wire : Buffer

/-- The first message, to box 0; the reply goes to box 1. -/
def original (farHost : NetworkAddress) (u : Unset) : Network.Letter numBoxes where
  pktHdr := { u.pktHdr with toAddr := farHost }
  mailHdr := ⟨0#32,1#32,BitVec.ofNat 32 (data.length + 1)⟩
  data := ofList data
  buffer := u.buffer
  wire := u.wire
  length := by decide
  nonneg := by decide
  hasBox := show (0#32).toInt < 10 by decide

/-- The box that the reply goes to exists. -/
def HasReply (inMailHdr : MailHeader) : Prop :=
  0 ≤ inMailHdr.fromAddr.toInt ∧ inMailHdr.fromAddr.toInt < 10

instance (inMailHdr : MailHeader) : Decidable (HasReply inMailHdr) :=
  inferInstanceAs (Decidable (_ ∧ _))

/-- The acknowledgement of the message that has just arrived; `outMailHdr.from` is still 1. -/
def acknowledgement (inPktHdr : PacketHeader) (inMailHdr : MailHeader)
    (hreply : HasReply inMailHdr) (u : Unset) : Network.Letter numBoxes where
  pktHdr := { u.pktHdr with toAddr := inPktHdr.fromAddr }
  mailHdr := ⟨inMailHdr.fromAddr,1#32,BitVec.ofNat 32 (ack.length + 1)⟩
  data := ofList ack
  buffer := u.buffer
  wire := u.wire
  length := show (BitVec.ofNat 32 (ack.length + 1)).toNat ≤ MaxMailSize by decide
  nonneg := hreply.1
  hasBox := hreply.2

structure State where
  net : Network.State Thread numBoxes
  test : NetworkAddress → Test

/-- The next statements of the main thread of a machine, up to the next point where it may have
to wait, and all other sections. -/
inductive Action
  | main (hostName : NetworkAddress) (u : Unset)
  | net (a : Network.Action Thread numBoxes)

/-- Sections that do not begin a `Send` or a `Receive`. -/
def Section : Network.Action Thread numBoxes → Prop
  | .send _ (.call _ _) _ | .office _ (.receive _ _) => False
  | _ => True

instance (a : Network.Action Thread numBoxes) : Decidable (Section a) := by
  unfold Section
  split <;> infer_instance

namespace State

def set (s : State) (hostName : NetworkAddress) (net : Network.State Thread numBoxes)
    (test : Test) : State :=
  ⟨net,Function.update s.test hostName test⟩

/-- The main thread is not in `Send`. -/
def Sent (s : State) (hostName : NetworkAddress) : Prop :=
  (s.net.host hostName).out.guard.lock.loc .main = .outside

instance (s : State) (hostName : NetworkAddress) : Decidable (s.Sent hostName) :=
  inferInstanceAs (Decidable (_ = _))

/-- What the `Receive` of the main thread has returned: it is the only thread that takes messages
from the box. -/
def returned (s : State) (hostName : NetworkAddress) (box : ℕ) : Option Mail :=
  if ((s.net.host hostName).office.boxes box).call .main = .none then
    ((s.net.host hostName).office.received box).getLast?
  else
    none

def send (s : State) (hostName : NetworkAddress) (l : Network.Letter numBoxes) (test : Test) :
    Except Fault State := do
  return s.set hostName
    (← Network.step .postman s.net (.send hostName (.call .main l) false)) test

def receive (s : State) (hostName : NetworkAddress) (box : ℤ) (stage : Stage) :
    Except Fault State := do
  require (s.Sent hostName)
  return s.set hostName (← Network.step .postman s.net (.office hostName (.receive .main box)))
    { s.test hostName with stage := stage }

/-- A message for a box that does not exist stops this machine or the other one; here, this
one. -/
def reply (s : State) (hostName : NetworkAddress) (test : Test) (u : Unset) :
    Except Fault State :=
  if hreply : HasReply test.inMailHdr then
    s.send hostName (acknowledgement test.inPktHdr test.inMailHdr hreply u) test
  else
    .error .assertion

def main (s : State) (hostName : NetworkAddress) (u : Unset) : Except Fault State := do
  require (hostName = 0 ∨ hostName = 1)
  match (s.test hostName).stage with
  | .start =>
    s.send hostName (original (farHost hostName) u) { s.test hostName with stage := .sending }
  | .sending => s.receive hostName 0 .receiving
  | .receiving =>
    match s.returned hostName 0 with
    | none => .error .blocked
    | some mail => s.reply hostName ((s.test hostName).got mail .acking) u
  | .acking => s.receive hostName 1 .awaiting
  | .awaiting =>
    match s.returned hostName 1 with
    | none => .error .blocked
    | some mail => return s.set hostName s.net ((s.test hostName).got mail .done)
  | .done => .error .blocked

end State

def step (s : State) : Action → Except Fault State
  | .main hostName u => s.main hostName u
  | .net a => do
    require (Section a)
    return { s with net := ← Network.step .postman s.net a }

def machine : Machine State Action where
  initial s := (Network.machine .postman).initial s.net ∧
    ∀ hostName, (s.test hostName).stage = .start ∧ (s.test hostName).printed = []
  step := step

/-! What a section of the network does to the calls of `Send`. -/

/-- The calls of `Send` on a machine. -/
def calls (n : Network.State Thread numBoxes) (f : NetworkAddress) :
    Thread → List (Network.Letter numBoxes) :=
  (n.host f).out.calls

theorem device_calls {f : NetworkAddress}
    {out out' : SynchDevice.State Thread Bool (Network.Letter numBoxes) Buffer}
    {a : SynchDevice.Action Thread (Network.Letter numBoxes)}
    (ha : ∀ t l, a ≠ .call t l) (h : SynchDevice.step (Network.device f) out a = .ok out') :
    out'.calls = out.calls := by
  cases a with
  | call t l => exact absurd rfl (ha t l)
  | resume t | setHolder t | P t | resumeP t =>
    obtain ⟨_,_,he⟩ := bind_ok.mp h
    cases he
    rfl
  | request t =>
    obtain ⟨_,_,h⟩ := bind_ok.mp h
    cases hr : out.argument t with
    | none => simp [hr] at h
    | some r =>
      simp only [hr] at h
      obtain ⟨_,_,he⟩ := bind_ok.mp h
      cases he
      rfl
  | release t =>
    obtain ⟨_,_,h⟩ := bind_ok.mp h
    obtain ⟨_,_,he⟩ := bind_ok.mp h
    cases he
    rfl
  | interrupt n =>
    obtain ⟨_,he⟩ := require_bind_ok.mp h
    cases he
    rfl

variable {n n' : Network.State Thread numBoxes}

theorem calls_setOut {f : NetworkAddress}
    {out : SynchDevice.State Thread Bool (Network.Letter numBoxes) Buffer}
    (hcalls : out.calls = (n.host f).out.calls) (g : NetworkAddress) :
    ((n.setOut f out).host g).out.calls = (n.host g).out.calls := by
  rw [Network.State.out_setOut]
  split_ifs with hg
  · rw [hcalls,hg]
  · rfl

theorem section_calls {a : Network.Action Thread numBoxes}
    (ha : ∀ f t l lost, a ≠ .send f (.call t l) lost)
    (h : Network.step .postman n a = .ok n') : calls n' = calls n := by
  funext f
  cases a with
  | send g a lost =>
    obtain ⟨out,hout,he⟩ := bind_ok.mp h
    cases he
    exact calls_setOut (device_calls (fun t l hc => ha g t l lost (by rw [hc])) hout) f
  | lose g m i =>
    cases h
    rfl
  | poll m g =>
    cases g with
    | none =>
      obtain ⟨office,_,he⟩ := bind_ok.mp h
      cases he
      exact congrArg _ (Network.State.out_setOffice n m f office)
    | some g =>
      simp only [Network.step,Network.State.poll] at h
      split at h
      · cases h
      · obtain ⟨office,_,h⟩ := bind_ok.mp h
        split_ifs at h
        all_goals
          cases h
          exact congrArg _ (Network.State.out_setOffice n m f office)
  | office m a =>
    obtain ⟨_,h⟩ := require_bind_ok.mp h
    obtain ⟨office,_,he⟩ := bind_ok.mp h
    cases he
    exact congrArg _ (Network.State.out_setOffice n m f office)

theorem call_calls {f : NetworkAddress} {t : Thread} {l : Network.Letter numBoxes}
    (h : Network.step .postman n (.send f (.call t l) false) = .ok n') :
    calls n' = Function.update (calls n) f
      (Function.update (calls n f) t (calls n f t ++ [l])) := by
  obtain ⟨out,hout,he⟩ := bind_ok.mp h
  cases he
  obtain ⟨guard,_,he⟩ := bind_ok.mp hout
  cases he
  funext g
  simp only [calls,Network.State.out_setOut]
  by_cases hg : g = f
  · rw [hg,if_pos rfl,Function.update_self]
  · rw [if_neg hg,Function.update_of_ne hg]
    rfl

/-- What was handed to the network comes from a call. -/
theorem mem_calls_of_handed {f m : NetworkAddress} {mail : Mail} (h : n.Inv .postman)
    (hmail : mail ∈ n.handed f m) :
    mail.pktHdr.toAddr = m ∧ ∃ t, mail ∈ (calls n f t).map fun l => l.mail f := by
  obtain ⟨e,he,rfl⟩ := List.mem_map.mp hmail
  obtain ⟨he,hto⟩ := List.mem_filter.mp he
  obtain ⟨entry,hentry,rfl⟩ := List.mem_map.mp he
  have hout := h.out f
  have hissued := hout.issued_prefix entry.1
  refine ⟨of_decide_eq_true hto,entry.1,List.mem_map_of_mem (hissued.subset ?_)⟩
  exact List.mem_map.mpr ⟨entry,List.mem_filter.mpr ⟨hentry,by simp⟩,rfl⟩

/-! What the two machines send and print. -/

/-- The two messages of a machine. -/
def first (hostName : NetworkAddress) : Mail :=
  ⟨⟨farHost hostName,hostName,25⟩,⟨0,1,13⟩,data ++ [0]⟩

def second (hostName : NetworkAddress) : Mail :=
  ⟨⟨farHost hostName,hostName,20⟩,⟨1,1,8⟩,ack ++ [0]⟩

def Stage.sent (hostName : NetworkAddress) : Stage → List Mail
  | .start => []
  | .sending | .receiving => [first hostName]
  | .acking | .awaiting | .done => [first hostName,second hostName]

def Stage.lines (farHost : NetworkAddress) : Stage → List Line
  | .start | .sending | .receiving => []
  | .acking | .awaiting => [⟨data,farHost,1⟩]
  | .done => [⟨data,farHost,1⟩,⟨ack,farHost,1⟩]

theorem farHost_farHost {hostName : NetworkAddress} (h : hostName = 0 ∨ hostName = 1) :
    farHost (farHost hostName) = hostName := by
  rcases h with rfl | rfl <;> rfl

theorem farHost_test {hostName : NetworkAddress} (h : hostName = 0 ∨ hostName = 1) :
    farHost hostName = 0 ∨ farHost hostName = 1 := by
  rcases h with rfl | rfl <;> decide

theorem farHost_ne (hostName : NetworkAddress) : farHost hostName ≠ hostName := by
  unfold farHost
  split_ifs with h
  · rw [h]
    decide
  · exact Ne.symm h

theorem toAddr_of_sent {f : NetworkAddress} {stage : Stage} {mail : Mail}
    (h : mail ∈ stage.sent f) : mail.pktHdr.toAddr = farHost f := by
  have hmail : mail = first f ∨ mail = second f := by
    cases stage <;> simp_all [Stage.sent]
  rcases hmail with rfl | rfl <;> rfl

theorem first_of_box {f : NetworkAddress} {stage : Stage} {mail : Mail}
    (h : mail ∈ stage.sent f) (hbox : mail.mailHdr.toAddr.toNat = 0) : mail = first f := by
  have hmail : mail = first f ∨ mail = second f := by
    cases stage <;> simp_all [Stage.sent]
  rcases hmail with rfl | rfl
  · rfl
  · cases hbox

/-- Only a machine that has got a message acknowledges it. -/
theorem second_of_box {f : NetworkAddress} {stage : Stage} {mail : Mail}
    (h : mail ∈ stage.sent f) (hbox : mail.mailHdr.toAddr.toNat = 1) :
    mail = second f ∧ stage.Got := by
  cases stage with
  | start => cases h
  | sending | receiving =>
    rw [Stage.sent,List.mem_singleton] at h
    rw [h] at hbox
    cases hbox
  | acking | awaiting | done =>
    rw [Stage.sent,List.mem_pair] at h
    rcases h with rfl | rfl
    · cases hbox
    · exact ⟨rfl,trivial⟩

/-- What is printed when a message of the test is received. -/
theorem printed_first (t : Test) (f : NetworkAddress) (stage : Stage) :
    (t.got (first f) stage).printed = t.printed ++ [⟨data,f,1⟩] := rfl

theorem printed_second (t : Test) (f : NetworkAddress) (stage : Stage) :
    (t.got (second f) stage).printed = t.printed ++ [⟨ack,f,1⟩] := rfl

namespace State

structure Inv (s : State) : Prop where
  net : s.net.Inv .postman
  others : ∀ f t, t ≠ .main ∨ ¬ (f = 0 ∨ f = 1) → calls s.net f t = []
  sent : ∀ f, f = 0 ∨ f = 1 →
    (calls s.net f .main).map (fun l => l.mail f) = (s.test f).stage.sent f
  printed : ∀ f, f = 0 ∨ f = 1 → (s.test f).printed = (s.test f).stage.lines (farHost f)
  agree : ∀ f, f = 0 ∨ f = 1 → (s.test f).stage = .done → (s.test (farHost f)).stage.Got

variable {s s' : State}

theorem inv_initial (h : machine.initial s) : s.Inv := by
  obtain ⟨hnet,htest⟩ := h
  have hcalls : ∀ f t, calls s.net f t = [] := by
    intro f t
    rw [calls,hnet.1 f]
    rfl
  refine ⟨Network.State.inv_initial hnet,fun f t _ => hcalls f t,fun f _ => ?_,fun f _ => ?_,
    fun f _ hdone => ?_⟩
  · rw [hcalls,(htest f).1]
    rfl
  · rw [(htest f).2,(htest f).1]
    rfl
  · rw [(htest f).1] at hdone
    cases hdone

/-- A message that the main thread gets comes from the other machine, which has sent it. -/
theorem Inv.returned (h : s.Inv) {hostName : NetworkAddress} {box : ℕ} {mail : Mail}
    (hmail : s.returned hostName box = some mail) :
    mail ∈ (s.test (farHost hostName)).stage.sent (farHost hostName) ∧
      mail.mailHdr.toAddr.toNat = box := by
  unfold State.returned at hmail
  split_ifs at hmail with hcall
  have hmem := List.mem_of_getLast? hmail
  have hhanded := (h.net.received_sublist mail.pktHdr.fromAddr hostName box).subset
    (List.mem_filter.mpr ⟨hmem,by simp⟩)
  obtain ⟨hhanded,hbox⟩ := List.mem_filter.mp hhanded
  obtain ⟨hto,t,hcalls⟩ := mem_calls_of_handed h.net hhanded
  refine ⟨?_,of_decide_eq_true hbox⟩
  by_cases hother : t ≠ .main ∨ ¬ (mail.pktHdr.fromAddr = 0 ∨ mail.pktHdr.fromAddr = 1)
  · rw [h.others _ _ hother] at hcalls
    cases hcalls
  · push Not at hother
    obtain ⟨rfl,hfrom⟩ := hother
    rw [h.sent _ hfrom] at hcalls
    rwa [← hto,toAddr_of_sent hcalls,farHost_farHost hfrom]

/-- The main thread of a machine goes on to another stage. -/
theorem Inv.set (h : s.Inv) {hostName : NetworkAddress} {net : Network.State Thread numBoxes}
    {test : Test} (hhost : hostName = 0 ∨ hostName = 1) (hnet : net.Inv .postman)
    (hcalls : ∀ f t, f ≠ hostName ∨ t ≠ .main → calls net f t = calls s.net f t)
    (hsent : (calls net hostName .main).map (fun l => l.mail hostName) = test.stage.sent hostName)
    (hprinted : test.printed = test.stage.lines (farHost hostName))
    (hgot : (s.test hostName).stage.Got → test.stage.Got)
    (hdone : test.stage = .done → (s.test (farHost hostName)).stage.Got) :
    (s.set hostName net test).Inv := by
  refine ⟨hnet,fun f t hft => ?_,fun f hf => ?_,fun f hf => ?_,fun f hf hfdone => ?_⟩
  · change calls net f t = []
    rw [hcalls f t,h.others f t hft]
    rcases hft with ht | hf
    · exact Or.inr ht
    · refine Or.inl ?_
      rintro rfl
      exact hf hhost
  · by_cases he : f = hostName
    · subst he
      simpa only [State.set,Function.update_self] using hsent
    · simp only [State.set,Function.update_of_ne he]
      rw [hcalls f .main (Or.inl he),h.sent f hf]
  · by_cases he : f = hostName
    · subst he
      simpa only [State.set,Function.update_self] using hprinted
    · simp only [State.set,Function.update_of_ne he]
      exact h.printed f hf
  · by_cases he : f = hostName
    · subst he
      simp only [State.set,Function.update_self] at hfdone
      simp only [State.set,Function.update_of_ne (farHost_ne f)]
      exact hdone hfdone
    · simp only [State.set,Function.update_of_ne he] at hfdone
      have hfar := h.agree f hf hfdone
      by_cases hef : farHost f = hostName
      · simp only [State.set,hef,Function.update_self]
        exact hgot (hef ▸ hfar)
      · simpa only [State.set,Function.update_of_ne hef] using hfar

theorem Inv.send (h : s.Inv) {hostName : NetworkAddress} {l : Network.Letter numBoxes}
    {test : Test} (hhost : hostName = 0 ∨ hostName = 1) (hs : s.send hostName l test = .ok s')
    (hsent : (s.test hostName).stage.sent hostName ++ [l.mail hostName] =
      test.stage.sent hostName)
    (hprinted : test.printed = test.stage.lines (farHost hostName))
    (hgot : (s.test hostName).stage.Got → test.stage.Got) (hdone : test.stage ≠ .done) :
    s'.Inv := by
  obtain ⟨net,hnet,he⟩ := bind_ok.mp hs
  cases he
  have hcalls := call_calls hnet
  refine h.set hhost (Network.State.inv_step h.net hnet) (fun f t hft => ?_) ?_ hprinted hgot
    fun hd => absurd hd hdone
  · rw [hcalls]
    by_cases hf : f = hostName
    · have ht : t ≠ .main := hft.resolve_left (not_not.mpr hf)
      rw [hf,Function.update_self,Function.update_of_ne ht]
    · rw [Function.update_of_ne hf]
  · rw [hcalls,Function.update_self,Function.update_self,List.map_append,h.sent hostName hhost]
    exact hsent

theorem Inv.receive (h : s.Inv) {hostName : NetworkAddress} {box : ℤ} {stage : Stage}
    (hhost : hostName = 0 ∨ hostName = 1) (hs : s.receive hostName box stage = .ok s')
    (hsent : (s.test hostName).stage.sent hostName = stage.sent hostName)
    (hlines : (s.test hostName).stage.lines (farHost hostName) = stage.lines (farHost hostName))
    (hgot : (s.test hostName).stage.Got → stage.Got) (hdone : stage ≠ .done) : s'.Inv := by
  obtain ⟨_,hs⟩ := require_bind_ok.mp hs
  obtain ⟨net,hnet,he⟩ := bind_ok.mp hs
  cases he
  have hcalls : calls net = calls s.net := by
    refine section_calls (fun _ _ _ _ hc => ?_) hnet
    cases hc
  refine h.set hhost (Network.State.inv_step h.net hnet) (fun f t _ => by rw [hcalls]) ?_ ?_ hgot
    fun hd => absurd hd hdone
  · rw [hcalls,h.sent hostName hhost]
    exact hsent
  · exact (h.printed hostName hhost).trans hlines

theorem Inv.main (h : s.Inv) {hostName : NetworkAddress} {u : Unset}
    (hs : s.main hostName u = .ok s') : s'.Inv := by
  obtain ⟨hhost,hs⟩ := require_bind_ok.mp hs
  have hprinted := h.printed hostName hhost
  cases hstage : (s.test hostName).stage with
  | start =>
    simp only [hstage] at hs hprinted
    exact h.send hhost hs (by rw [hstage]; rfl) hprinted (by rw [hstage]; exact id) nofun
  | sending =>
    simp only [hstage] at hs
    exact h.receive hhost hs (by rw [hstage]; rfl) (by rw [hstage]; rfl)
      (by rw [hstage]; exact id) nofun
  | receiving =>
    simp only [hstage] at hs hprinted
    cases hmail : s.returned hostName 0 with
    | none => simp [hmail] at hs
    | some mail =>
      simp only [hmail] at hs
      obtain ⟨hsent,hbox⟩ := h.returned hmail
      cases first_of_box hsent hbox
      simp only [State.reply] at hs
      split at hs
      · refine h.send hhost hs ?_ ?_ (fun _ => trivial) nofun
        · rw [hstage]
          rfl
        · rw [printed_first,hprinted]
          rfl
      · cases hs
  | acking =>
    simp only [hstage] at hs
    exact h.receive hhost hs (by rw [hstage]; rfl) (by rw [hstage]; rfl)
      (by rw [hstage]; exact id) nofun
  | awaiting =>
    simp only [hstage] at hs hprinted
    cases hmail : s.returned hostName 1 with
    | none => simp [hmail] at hs
    | some mail =>
      simp only [hmail] at hs
      cases hs
      obtain ⟨hsent,hbox⟩ := h.returned hmail
      obtain ⟨rfl,hgot⟩ := second_of_box hsent hbox
      refine h.set hhost h.net (fun _ _ _ => rfl) ?_ ?_ (fun _ => trivial) fun _ => hgot
      · rw [h.sent hostName hhost,hstage]
        rfl
      · rw [printed_second,hprinted]
        rfl
  | done => simp [hstage] at hs

theorem inv_step {a : Action} (h : s.Inv) (hs : step s a = .ok s') : s'.Inv := by
  cases a with
  | main hostName u => exact h.main hs
  | net a =>
    obtain ⟨ha,hs⟩ := require_bind_ok.mp hs
    obtain ⟨net,hnet,he⟩ := bind_ok.mp hs
    cases he
    have hcalls : calls net = calls s.net := by
      refine section_calls (fun f t l lost hc => ?_) hnet
      rw [hc] at ha
      exact ha
    refine ⟨Network.State.inv_step h.net hnet,?_,?_,h.printed,h.agree⟩
    · simp only [hcalls]
      exact h.others
    · simp only [hcalls]
      exact h.sent

theorem reachable_inv (h : machine.Reachable s) : s.Inv :=
  h.invariant (fun _ => inv_initial) fun _ _ _ => inv_step

theorem Inv.send_not_assertion (h : s.Inv) (hostName : NetworkAddress)
    (l : Network.Letter numBoxes) (test : Test) : s.send hostName l test ≠ .error .assertion :=
  bind_pure_assertion.not.mpr
    (h.net.step_not_assertion (a := .send hostName (.call .main l) false) trivial)

theorem Inv.receive_not_assertion (h : s.Inv) (hostName : NetworkAddress) {box : ℤ}
    (stage : Stage) (hbox : 0 ≤ box ∧ box < 10) :
    s.receive hostName box stage ≠ .error .assertion := fun hs =>
  h.net.step_not_assertion (a := .office hostName (.receive .main box)) hbox
    (bind_pure_assertion.mp (require_bind_assertion.mp hs).2)

/-- The reply goes to the box 1 of the other machine. -/
theorem Inv.main_not_assertion (h : s.Inv) (hostName : NetworkAddress) (u : Unset) :
    s.main hostName u ≠ .error .assertion := by
  intro hs
  obtain ⟨_,hs⟩ := require_bind_assertion.mp hs
  cases hstage : (s.test hostName).stage with
  | start =>
    simp only [hstage] at hs
    exact h.send_not_assertion _ _ _ hs
  | sending =>
    simp only [hstage] at hs
    exact h.receive_not_assertion hostName .receiving (by decide) hs
  | receiving =>
    simp only [hstage] at hs
    cases hmail : s.returned hostName 0 with
    | none => simp [hmail] at hs
    | some mail =>
      simp only [hmail] at hs
      obtain ⟨hsent,hbox⟩ := h.returned hmail
      cases first_of_box hsent hbox
      have hreply : HasReply ((s.test hostName).got (first (farHost hostName)) .acking).inMailHdr :=
        show HasReply ⟨0,1,13⟩ by decide
      simp only [State.reply,dif_pos hreply] at hs
      exact h.send_not_assertion _ _ _ hs
  | acking =>
    simp only [hstage] at hs
    exact h.receive_not_assertion hostName .awaiting (by decide) hs
  | awaiting =>
    simp only [hstage] at hs
    cases hmail : s.returned hostName 1 with
    | none => simp [hmail] at hs
    | some mail =>
      simp only [hmail] at hs
      cases hs
  | done => simp [hstage] at hs

theorem Inv.step_not_assertion (h : s.Inv) (a : Action) : step s a ≠ .error .assertion := by
  intro hs
  cases a with
  | main hostName u => exact h.main_not_assertion hostName u hs
  | net a =>
    obtain ⟨ha,hs⟩ := require_bind_assertion.mp hs
    refine h.net.step_not_assertion (a := a) ?_ (bind_pure_assertion.mp hs)
    cases a with
    | office m a => cases a <;> trivial
    | _ => trivial

end State

/-- In every interleaving of the threads and interrupts of both machines, with any losses, the
test prints on each machine first the message of the other machine and then its acknowledgement,
each whole and with the address and the box it came from, or as much of this as arrives.  A
machine that has got an acknowledgement knows that the other one has printed its message, and no
assertion fails. -/
theorem networkTest_agrees (s : State) (h : machine.Reachable s) :
    (∀ f, f = 0 ∨ f = 1 → (s.test f).printed <+: [⟨data,farHost f,1⟩,⟨ack,farHost f,1⟩] ∧
      ((s.test f).stage = .done → (s.test f).printed = [⟨data,farHost f,1⟩,⟨ack,farHost f,1⟩]) ∧
      (⟨ack,farHost f,1⟩ ∈ (s.test f).printed →
        (s.test (farHost f)).printed.head? = some ⟨data,f,1⟩)) ∧
    ∀ a, step s a ≠ .error .assertion := by
  have hs := State.reachable_inv h
  refine ⟨fun f hf => ⟨?_,fun hdone => ?_,fun hack => ?_⟩,hs.step_not_assertion⟩
  · rw [hs.printed f hf]
    cases (s.test f).stage <;> simp [Stage.lines]
  · rw [hs.printed f hf,hdone]
    rfl
  · have hne : ack ≠ data := by decide
    have hdone : (s.test f).stage = .done := by
      rw [hs.printed f hf] at hack
      cases hstage : (s.test f).stage <;> simp_all [Stage.lines]
    have hfar := hs.agree f hf hdone
    rw [hs.printed _ (farHost_test hf),farHost_farHost hf]
    cases hstage : (s.test (farHost f)).stage <;> simp_all [Stage.lines,Stage.Got]

def booted : State where
  net := ⟨fun _ => ⟨SynchDevice.new false,PostOffice.new ⟨⟨0,0,0⟩,fun _ => 0⟩ fun _ => 0⟩,
    fun _ _ => []⟩
  test _ := ⟨.start,⟨0,0,0⟩,⟨0,0,0⟩,fun _ => 0,[]⟩

/-- The main thread begins a `Send`, the `n`th of its machine, and is through with it. -/
def sends (f : NetworkAddress) (n : ℕ) : List Action :=
  [.main f ⟨⟨0,0,0⟩,fun _ => 0,fun _ => 0⟩,.net (.send f (.setHolder .main) false),
    .net (.send f (.request .main) false),.net (.send f (.P .main) false),
    .net (.send f (.interrupt n) false),.net (.send f (.resumeP .main) false),
    .net (.send f (.release .main) false)]

/-- The packet of the other machine is put into a box, from which the main thread takes it. -/
def receives (f : NetworkAddress) (box : ℕ) : List Action :=
  [.net (.poll f (some (farHost f))),.net (.office f .P),.net (.office f .deliver),
    .net (.office f (.box box (.enter .postman))),.main f ⟨⟨0,0,0⟩,fun _ => 0,fun _ => 0⟩,
    .net (.office f (.box box (.enter .main)))]

def exchange : List Action :=
  sends 0 0 ++ sends 1 0 ++ receives 0 0 ++ receives 1 0 ++ sends 0 1 ++ sends 1 1 ++
    receives 0 1 ++ receives 1 1 ++ [.main 0 ⟨⟨0,0,0⟩,fun _ => 0,fun _ => 0⟩]

theorem networkTest_agrees_exchange : ∃ s, machine.run booted exchange = .ok s ∧
    (s.test 0).printed = [⟨data,1,1⟩,⟨ack,1,1⟩] ∧
    (s.test 1).printed.head? = some ⟨data,0,1⟩ := by
  obtain ⟨s,hrun,hdone⟩ : ∃ s, machine.run booted exchange = .ok s ∧ (s.test 0).stage = .done :=
    ⟨_,rfl,rfl⟩
  have hbooted : machine.Reachable booted :=
    .start ⟨⟨fun _ => rfl,fun _ => ⟨_,_,rfl,rfl⟩,fun _ _ => rfl⟩,fun _ => ⟨rfl,rfl⟩⟩
  obtain ⟨_,hprinted,hack⟩ := (networkTest_agrees s (hbooted.run hrun)).1 0 (Or.inl rfl)
  refine ⟨s,hrun,hprinted hdone,hack ?_⟩
  rw [hprinted hdone]
  exact List.mem_of_getLast? rfl

end NetworkTest
end NachOS
