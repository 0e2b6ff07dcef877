import NachOS.StateMachine
import NachOS.Memory

/-! The format of messages (network/post.h, machine/network.h) and what the sending and the
receiving machine check of it (network/post.cc, machine/network.cc).  A packet on the wire is
64 bytes: the header of the network, the header of the post office, the data. -/
namespace NachOS

open StateMachine Memory

namespace Memory

theorem word_congr_shift {b b' : Buffer} {k l : ℕ} (h : ∀ j, j < 4 → b (k + j) = b' (l + j)) :
    word b k = word b' l := by
  have h₀ : b k = b' l := h 0 (by omega)
  rw [word,word,h₀,h 1 (by omega),h 2 (by omega),h 3 (by omega)]

/-- The `n` bytes from offset `k` on. -/
def slice (b : Buffer) (k n : ℕ) : List Byte := (List.range n).map fun i => b (k + i)

theorem slice_congr {b b' : Buffer} {k l n : ℕ} (h : ∀ j, j < n → b (k + j) = b' (l + j)) :
    slice b k n = slice b' l n := by
  apply List.map_congr_left
  intro j hj
  exact h j (List.mem_range.mp hj)

end Memory

abbrev NetworkAddress := BitVec 32

/-- `PacketHeader` and `MailHeader`: two addresses and a length. -/
structure Header where
  toAddr : BitVec 32
  fromAddr : BitVec 32
  length : BitVec 32
  deriving DecidableEq, Repr

abbrev PacketHeader := Header

abbrev MailHeader := Header

namespace Header

abbrev size : ℕ := 12

def store (h : Header) (b : Buffer) (k : ℕ) : Buffer :=
  setWord (setWord (setWord b k h.toAddr) (k + 4) h.fromAddr) (k + 8) h.length

def fetch (b : Buffer) (k : ℕ) : Header := ⟨word b k,word b (k + 4),word b (k + 8)⟩

theorem fetch_congr {b b' : Buffer} {k l : ℕ} (h : ∀ j, j < size → b (k + j) = b' (l + j)) :
    fetch b k = fetch b' l := by
  have hword : ∀ i, i + 4 ≤ size → word b (k + i) = word b' (l + i) := by
    intro i hi
    apply word_congr_shift
    intro j hj
    have hij := h (i + j) (by omega)
    rwa [← Nat.add_assoc,← Nat.add_assoc] at hij
  rw [fetch,fetch,hword 4 (by decide),hword 8 (by decide)]
  exact congrArg (fun w => Header.mk w _ _) (hword 0 (by decide))

theorem fetch_store (h : Header) (b : Buffer) (k : ℕ) : fetch (h.store b k) k = h := by
  have hto : word (h.store b k) k = h.toAddr := by
    rw [store,word_setWord_of_disjoint _ _ (by omega),word_setWord_of_disjoint _ _ (by omega),
      word_setWord]
  have hfrom : word (h.store b k) (k + 4) = h.fromAddr := by
    rw [store,word_setWord_of_disjoint _ _ (by omega),word_setWord]
  have hlength : word (h.store b k) (k + 8) = h.length := by rw [store,word_setWord]
  rw [fetch,hto,hfrom,hlength]

end Header

abbrev MaxWireSize : ℕ := 64
abbrev MaxPacketSize : ℕ := MaxWireSize - Header.size
abbrev MaxMailSize : ℕ := MaxPacketSize - Header.size

/-- A message; of `data` the bytes that are set. -/
structure Mail where
  pktHdr : PacketHeader
  mailHdr : MailHeader
  data : List Byte
  deriving DecidableEq, Repr

/-- `Mail::Mail`; the data starts at offset `k` of `msgData`. -/
def Mail.new (pktH : PacketHeader) (mailH : MailHeader) (msgData : Buffer) (k : ℕ) :
    Except Fault Mail := do
  check (mailH.length.toNat ≤ MaxMailSize)
  return ⟨pktH,mailH,slice msgData k mailH.length.toNat⟩

/-! The sending machine. -/

namespace PostOfficeOutput

/-- `PostOfficeOutput::Send` up to the lock: what it passes to the network.  `buffer` is the
memory it allocates. -/
def Send (hostName : NetworkAddress) (pktHdr : PacketHeader) (mailHdr : MailHeader)
    (data buffer : Buffer) : Except Fault (PacketHeader × Buffer) := do
  check (mailHdr.length.toNat ≤ MaxMailSize)
  check (0 ≤ mailHdr.toAddr.toInt)
  let pktHdr := { pktHdr with fromAddr := hostName,length := mailHdr.length + 12#32 }
  let buffer := mailHdr.store buffer 0
  return (pktHdr,bcopy data 0 buffer Header.size mailHdr.length.toNat)

end PostOfficeOutput

namespace NetworkOutput

/-- What `NetworkOutput::Send` puts on the wire if it does not lose it. -/
def Send (hostName : NetworkAddress) (sendBusy : Bool) (hdr : PacketHeader)
    (data buffer : Buffer) : Except Fault Buffer := do
  check (sendBusy = false ∧ 0 < hdr.length.toNat ∧ hdr.length.toNat ≤ MaxPacketSize ∧
    hdr.fromAddr = hostName)
  return bcopy data 0 (hdr.store buffer 0) Header.size hdr.length.toNat

end NetworkOutput

/-- The whole way of a message to the wire. -/
def PostOfficeOutput.transmit (hostName : NetworkAddress) (sendBusy : Bool)
    (pktHdr : PacketHeader) (mailHdr : MailHeader) (data buffer wire : Buffer) :
    Except Fault Buffer := do
  let (hdr,payload) ← PostOfficeOutput.Send hostName pktHdr mailHdr data buffer
  NetworkOutput.Send hostName sendBusy hdr payload wire

/-! The receiving machine. -/

/-- The buffer of the network device; it is full if `inHdr.length` is not 0. -/
structure NetworkInput where
  inHdr : PacketHeader
  inbox : Buffer

namespace NetworkInput

/-- `NetworkInput::CallBack` from `ReadFromSocket` on. -/
def CallBack (n : NetworkInput) (hostName : NetworkAddress) (packet : Buffer) :
    Except Fault NetworkInput := do
  let inHdr := Header.fetch packet 0
  check (inHdr.toAddr = hostName ∧ inHdr.length.toNat ≤ MaxPacketSize)
  return ⟨inHdr,bcopy packet Header.size n.inbox 0 inHdr.length.toNat⟩

def Receive (n : NetworkInput) (data : Buffer) : PacketHeader × Buffer × NetworkInput :=
  let hdr := n.inHdr
  let data := if hdr.length ≠ 0#32 then bcopy n.inbox 0 data 0 hdr.length.toNat else data
  (hdr,data,{ n with inHdr := { hdr with length := 0#32 } })

end NetworkInput

namespace PostOfficeInput

/-- `PostalDelivery` from the packet to the message, for the box `mailHdr.to`. -/
def PostalDelivery (numBoxes : ℤ) (pktHdr : PacketHeader) (buffer : Buffer) :
    Except Fault Mail := do
  let mailHdr := Header.fetch buffer 0
  check (0 ≤ mailHdr.toAddr.toInt ∧ mailHdr.toAddr.toInt < numBoxes)
  check (mailHdr.length.toNat ≤ MaxMailSize)
  Mail.new pktHdr mailHdr buffer Header.size

/-- The assertions of `PostOfficeInput::Receive` before and after it takes a message. -/
def Receive (numBoxes box : ℤ) (mail : Mail) : Except Fault Mail := do
  check (0 ≤ box ∧ box < numBoxes)
  check (mail.mailHdr.length.toNat ≤ MaxMailSize)
  return mail

/-- A packet on its way from the socket through the input buffer and the hands of the postal
worker to a thread that reads the box. -/
def accept (hostName : NetworkAddress) (numBoxes : ℤ) (network : NetworkInput) (buffer : Buffer)
    (packet : Buffer) : Except Fault Mail := do
  let network ← network.CallBack hostName packet
  let (pktHdr,buffer,_) := network.Receive buffer
  let mail ← PostalDelivery numBoxes pktHdr buffer
  Receive numBoxes mail.mailHdr.toAddr.toInt mail

end PostOfficeInput

/-! A packet from one machine to the other. -/

/-- The message in a packet. -/
def Mail.ofPacket (packet : Buffer) : Mail :=
  let mailHdr := Header.fetch packet Header.size
  ⟨Header.fetch packet 0,mailHdr,slice packet (Header.size + Header.size) mailHdr.length.toNat⟩

/-- The message that a call of `Send` means. -/
def Mail.sent (hostName : NetworkAddress) (pktHdr : PacketHeader) (mailHdr : MailHeader)
    (data : Buffer) : Mail :=
  ⟨⟨pktHdr.toAddr,hostName,mailHdr.length + 12#32⟩,mailHdr,slice data 0 mailHdr.length.toNat⟩

/-- What a sending machine guarantees of its packets. -/
structure WellFormed (packet : Buffer) : Prop where
  length : (Header.fetch packet 0).length.toNat =
    (Header.fetch packet Header.size).length.toNat + Header.size
  size : (Header.fetch packet Header.size).length.toNat ≤ MaxMailSize
  box : 0 ≤ (Header.fetch packet Header.size).toAddr.toInt

/-- A header in front of `n` bytes, as both layers build their buffers. -/
theorem fetch_bcopy (h : Header) (src dst : Buffer) (n : ℕ) :
    Header.fetch (bcopy src 0 (h.store dst 0) Header.size n) 0 = h := by
  have hkeep : ∀ j, j < Header.size →
      bcopy src 0 (h.store dst 0) Header.size n (0 + j) = h.store dst 0 (0 + j) :=
    fun j hj => bcopy_out src 0 _ (by omega)
  rw [Header.fetch_congr hkeep,Header.fetch_store]

theorem bcopy_behind (src dst : Buffer) {n j : ℕ} (hj : j < n) :
    bcopy src 0 dst Header.size n (Header.size + j) = src j := by
  rw [bcopy_in _ _ _ (by omega)]
  congr 1
  omega

theorem length_add {length : BitVec 32} (h : length.toNat ≤ MaxMailSize) :
    (length + 12#32).toNat = length.toNat + Header.size := by
  simp only [MaxMailSize,MaxPacketSize,MaxWireSize,Header.size] at h
  simp only [BitVec.toNat_add,BitVec.toNat_ofNat,Header.size]
  omega

theorem packet_of_sent {hostName : NetworkAddress} {pktHdr : PacketHeader}
    {mailHdr : MailHeader} {data buffer wire packet : Buffer} {sendBusy : Bool}
    (hsend : PostOfficeOutput.transmit hostName sendBusy pktHdr mailHdr data buffer wire =
      .ok packet) :
    Mail.ofPacket packet = .sent hostName pktHdr mailHdr data ∧ WellFormed packet := by
  obtain ⟨_,hpost,hnet⟩ := bind_ok.mp hsend
  obtain ⟨hlen,hpost⟩ := check_bind_ok.mp hpost
  obtain ⟨hbox,hpost⟩ := check_bind_ok.mp hpost
  cases hpost
  obtain ⟨_,hnet⟩ := check_bind_ok.mp hnet
  cases hnet
  have hadd := length_add hlen
  generalize hpayload : bcopy data 0 (mailHdr.store buffer 0) Header.size mailHdr.length.toNat =
    payload
  generalize hpacket : bcopy payload 0 (Header.store _ wire 0) Header.size
    (mailHdr.length + 12#32).toNat = packet
  have hfirst : Header.fetch packet 0 = ⟨pktHdr.toAddr,hostName,mailHdr.length + 12#32⟩ := by
    rw [← hpacket,fetch_bcopy]
  have hbehind : ∀ j, j < mailHdr.length.toNat + Header.size →
      packet (Header.size + j) = payload (0 + j) := by
    intro j hj
    rw [← hpacket,bcopy_behind _ _ (by omega),Nat.zero_add]
  have hsecond : Header.fetch packet Header.size = mailHdr := by
    have hshift := Header.fetch_congr (k := Header.size) (l := 0) fun j hj => hbehind j (by omega)
    rw [hshift,← hpayload,fetch_bcopy]
  have hdata : slice packet (Header.size + Header.size) mailHdr.length.toNat =
      slice data 0 mailHdr.length.toNat := by
    apply slice_congr
    intro j hj
    have h₁ := hbehind (Header.size + j) (by omega)
    rw [← Nat.add_assoc] at h₁
    rw [h₁,Nat.zero_add,← hpayload,bcopy_behind _ _ hj,Nat.zero_add]
  refine ⟨?_,?_,?_,?_⟩
  · rw [Mail.ofPacket,hsecond,hfirst,hdata]
    rfl
  · rw [hfirst,hsecond]
    exact hadd
  · rw [hsecond]
    exact hlen
  · rw [hsecond]
    exact hbox

/-- The packet is in the input buffer. -/
structure NetworkInput.Holds (n : NetworkInput) (packet : Buffer) : Prop where
  inHdr : n.inHdr = Header.fetch packet 0
  inbox : ∀ j, j < n.inHdr.length.toNat → n.inbox j = packet (Header.size + j)

theorem CallBack_eq {packet : Buffer} (h : WellFormed packet) (n : NetworkInput)
    (hostName : NetworkAddress) (hto : (Header.fetch packet 0).toAddr = hostName) :
    ∃ n', n.CallBack hostName packet = .ok n' ∧ n'.Holds packet := by
  have hlength : (Header.fetch packet 0).length.toNat ≤ MaxPacketSize := by
    rw [h.length]
    exact Nat.add_le_of_le_sub (by decide) h.size
  refine ⟨_,check_bind_ok.mpr ⟨⟨hto,hlength⟩,rfl⟩,rfl,fun j hj => ?_⟩
  exact bcopy_in packet Header.size n.inbox ⟨Nat.zero_le j,by simpa using hj⟩

/-- The worker finds in its buffer the message of the packet, and accepts it if it has the
box. -/
theorem PostalDelivery_eq {packet : Buffer} {n : NetworkInput} (h : WellFormed packet)
    (hn : n.Holds packet) (numBoxes : ℤ) (data : Buffer) :
    PostOfficeInput.PostalDelivery numBoxes (n.Receive data).1 (n.Receive data).2.1 =
      if (Header.fetch packet Header.size).toAddr.toInt < numBoxes then .ok (Mail.ofPacket packet)
      else .error .assertion := by
  have hlength : n.inHdr.length.toNat =
      (Header.fetch packet Header.size).length.toNat + Header.size := by
    rw [hn.inHdr,h.length]
  have hne : n.inHdr.length ≠ 0#32 := by
    intro he
    rw [he] at hlength
    simp [Header.size] at hlength
  have hbuffer : ∀ j, j < (Header.fetch packet Header.size).length.toNat + Header.size →
      (n.Receive data).2.1 (0 + j) = packet (Header.size + j) := by
    intro j hj
    simp only [NetworkInput.Receive,if_pos hne]
    rw [bcopy_in _ _ _ (by omega),← hn.inbox j (by omega)]
    congr 1
    omega
  have hheader : Header.fetch (n.Receive data).2.1 0 = Header.fetch packet Header.size :=
    Header.fetch_congr fun j hj => hbuffer j (by omega)
  have hdata : slice (n.Receive data).2.1 Header.size
      (Header.fetch packet Header.size).length.toNat =
      slice packet (Header.size + Header.size) (Header.fetch packet Header.size).length.toNat := by
    apply slice_congr
    intro j hj
    have h₁ := hbuffer (Header.size + j) (by omega)
    rwa [Nat.zero_add,← Nat.add_assoc] at h₁
  have hpkt : (n.Receive data).1 = Header.fetch packet 0 := hn.inHdr
  simp only [PostOfficeInput.PostalDelivery,hheader,Mail.new,hdata,hpkt]
  by_cases hbox : (Header.fetch packet Header.size).toAddr.toInt < numBoxes
  · rw [check_of ⟨h.box,hbox⟩,check_of h.size,if_pos hbox]
    rfl
  · rw [if_neg hbox]
    simp only [check,hbox,and_false,if_false]
    rfl

/-- A message that was accepted for sending is received without a failing assertion exactly if
the receiving machine has its box, and is then received as it was sent. -/
theorem receiver_accepts_iff {hostName : NetworkAddress} {pktHdr : PacketHeader}
    {mailHdr : MailHeader} {data buffer wire packet : Buffer} {sendBusy : Bool}
    (hsend : PostOfficeOutput.transmit hostName sendBusy pktHdr mailHdr data buffer wire =
      .ok packet) (numBoxes : ℤ) (network : NetworkInput) (workerBuffer : Buffer) :
    (PostOfficeInput.accept pktHdr.toAddr numBoxes network workerBuffer packet ≠
        .error .assertion ↔ mailHdr.toAddr.toInt < numBoxes) ∧
    (mailHdr.toAddr.toInt < numBoxes →
      PostOfficeInput.accept pktHdr.toAddr numBoxes network workerBuffer packet =
        .ok (.sent hostName pktHdr mailHdr data)) := by
  obtain ⟨hmail,hpacket⟩ := packet_of_sent hsend
  have hto : (Header.fetch packet 0).toAddr = pktHdr.toAddr :=
    congrArg (fun m : Mail => m.pktHdr.toAddr) hmail
  have hmailHdr : Header.fetch packet Header.size = mailHdr := congrArg Mail.mailHdr hmail
  obtain ⟨n,hn,hholds⟩ := CallBack_eq hpacket network pktHdr.toAddr hto
  have hdelivery := PostalDelivery_eq hpacket hholds numBoxes workerBuffer
  rw [hmailHdr,hmail] at hdelivery
  have hlength := hpacket.size
  have hbox := hpacket.box
  rw [hmailHdr] at hlength hbox
  by_cases hlt : mailHdr.toAddr.toInt < numBoxes
  · rw [if_pos hlt] at hdelivery
    have haccept : PostOfficeInput.accept pktHdr.toAddr numBoxes network workerBuffer packet =
        .ok (.sent hostName pktHdr mailHdr data) := by
      simp only [PostOfficeInput.accept,hn,bind,Except.bind,hdelivery]
      exact check_bind_ok.mpr ⟨⟨hbox,hlt⟩,check_bind_ok.mpr ⟨hlength,rfl⟩⟩
    rw [haccept]
    exact ⟨⟨fun _ => hlt,fun _ => nofun⟩,fun _ => rfl⟩
  · rw [if_neg hlt] at hdelivery
    have haccept : PostOfficeInput.accept pktHdr.toAddr numBoxes network workerBuffer packet =
        .error .assertion := by
      simp only [PostOfficeInput.accept,hn,bind,Except.bind,hdelivery]
    rw [haccept]
    exact ⟨⟨fun h => absurd rfl h,fun h => absurd h hlt⟩,fun h => absurd h hlt⟩

/-- An input buffer that holds no packet. -/
def NetworkInput.new : NetworkInput := ⟨⟨0,0,0⟩,fun _ => 0⟩

theorem receiver_accepts_iff_hi : ∃ packet,
    PostOfficeOutput.transmit 0 false ⟨1,0,0⟩ ⟨9,3,2⟩ (ofList [72,105]) (fun _ => 0) (fun _ => 0) =
      .ok packet ∧
    PostOfficeInput.accept 1 10 .new (fun _ => 0) packet = .ok ⟨⟨1,0,14⟩,⟨9,3,2⟩,[72,105]⟩ := by
  have hsend : PostOfficeOutput.transmit 0 false ⟨1,0,0⟩ ⟨9,3,2⟩ (ofList [72,105]) (fun _ => 0)
    (fun _ => 0) = .ok _ := rfl
  exact ⟨_,hsend,(receiver_accepts_iff hsend 10 .new fun _ => 0).2 (by decide)⟩

/-- A message to box 10 is accepted for sending, and stops the receiving machine, which has
boxes 0 to 9. -/
theorem sent_message_stops_receiver : ∃ packet,
    PostOfficeOutput.transmit 0 false ⟨1,0,0⟩ ⟨10,3,2⟩ (ofList [72,105]) (fun _ => 0)
      (fun _ => 0) = .ok packet ∧
    PostOfficeInput.accept 1 10 .new (fun _ => 0) packet = .error .assertion :=
  ⟨_,rfl,rfl⟩

end NachOS
