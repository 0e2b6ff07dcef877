import NachOS.ExceptionHandler

/-! The system calls that read from the console, one after the other (userprog/ksyscall.h).
The end of the input is delivered once; a call that asks for another character after it waits
forever. -/
namespace NachOS

open StateMachine hiding Machine
open Memory

namespace Kernel

/-- The characters that the console will still deliver. -/
def stream (k : Kernel) : List Byte :=
  if k.console.ended then [] else k.console.input.takeWhile (· ≠ EOF) ++ [EOF]

theorem GetChar_nil {k : Kernel} (h : k.stream = []) : k.GetChar = .error .blocked := by
  cases he : k.console.ended with
  | false => simp [stream,he] at h
  | true => simp [GetChar,he]

theorem GetChar_cons {k : Kernel} {c : Byte} {rest : List Byte} (h : k.stream = c :: rest) :
    ∃ k', k.GetChar = .ok (c,k') ∧ k'.stream = rest := by
  cases he : k.console.ended with
  | true => simp [stream,he] at h
  | false =>
    simp only [stream,he,Bool.false_eq_true,if_false] at h
    cases hinput : k.console.input with
    | nil =>
      rw [hinput] at h
      cases h
      refine ⟨{ k with console := { k.console with ended := true } },?_,by simp [stream]⟩
      simp [GetChar,he,hinput]
    | cons d input =>
      rw [hinput] at h
      refine ⟨{ k with console := { k.console with input := input,ended := d == EOF } },?_⟩
      by_cases hd : d = EOF
      · simp only [List.takeWhile,hd,ne_eq,not_true_eq_false,decide_false] at h
        cases h
        exact ⟨by simp [GetChar,he,hinput,hd],by simp [stream,hd]⟩
      · simp only [List.takeWhile,hd,ne_eq,not_false_eq_true,decide_true] at h
        cases h
        exact ⟨by simp [GetChar,he,hinput],by simp [stream,hd]⟩

/-- What is left of a stream when at most `n` characters are taken, the last one being the
first that `stops`; nothing if the stream ends before that. -/
def consume (stops : Byte → Bool) : List Byte → ℕ → Option (List Byte)
  | σ, 0 => some σ
  | [], _ + 1 => none
  | c :: σ, n + 1 => if stops c then some σ else consume stops σ n

theorem consume_eq (stops : Byte → Bool) (σ : List Byte) (n : ℕ) :
    consume stops σ n = if n ≤ σ.length ∨ ∃ c ∈ σ, stops c
      then some (σ.drop (min n (σ.findIdx stops + 1))) else none := by
  induction σ generalizing n with
  | nil =>
    cases n with
    | zero => simp [consume]
    | succ n => simp [consume]
  | cons c σ ih =>
    cases n with
    | zero => simp [consume]
    | succ n =>
      cases hc : stops c with
      | true => simp [consume,hc,List.findIdx_cons]
      | false => simp [consume,hc,List.findIdx_cons,ih]

/-! The loops. -/

/-- The computation takes the characters of `taken` off the console, or waits if there are
not enough of them. -/
def Takes {α : Type} (x : Except Fault α) (kernel : α → Kernel) : Option (List Byte) → Prop
  | none => x = .error .blocked
  | some σ => ∃ a, x = .ok a ∧ (kernel a).stream = σ

/-- `char`s that end a line. -/
def endsLine (c : Byte) : Bool := c = 0#8 ∨ c = 10#8

def isEOF (c : Byte) : Bool := c = EOF

theorem SysReadChar_takes (k : Kernel) :
    Takes k.SysReadChar Prod.snd (consume (fun _ => false) k.stream 1) := by
  cases hs : k.stream with
  | nil => exact GetChar_nil hs
  | cons c σ =>
    obtain ⟨k',hk,hk'⟩ := GetChar_cons hs
    simp only [consume]
    exact ⟨(c,k'),hk,hk'⟩

theorem readString_takes (k : Kernel) (buffer : Buffer) (i n : ℕ) :
    Takes (k.readString buffer i n) Prod.snd (consume endsLine k.stream n) := by
  induction n generalizing k buffer i with
  | zero =>
    simp only [consume]
    exact ⟨(buffer,k),rfl,rfl⟩
  | succ n ih =>
    cases hs : k.stream with
    | nil =>
      simp only [consume,Takes,readString,SysReadChar,GetChar_nil hs]
      rfl
    | cons c σ =>
      obtain ⟨k',hk,rfl⟩ := GetChar_cons hs
      by_cases hc : c = 0#8 ∨ c = 10#8
      · have hstop : endsLine c = true := by simpa [endsLine] using hc
        simp only [consume,hstop,if_true]
        refine ⟨(Function.update buffer i 0#8,k'),?_,rfl⟩
        simp only [readString,SysReadChar,hk,bind,Except.bind,if_pos hc,pure,Except.pure]
      · have hgo : endsLine c = false := by simpa [endsLine] using hc
        simp only [consume,hgo,readString,SysReadChar,hk,bind,Except.bind,if_neg hc]
        exact ih k' _ _

theorem readConsole_takes (k : Kernel) (buffer : Buffer) (i n : ℕ) :
    Takes (k.readConsole buffer i n) (fun r => r.2.2) (consume isEOF k.stream n) := by
  induction n generalizing k buffer i with
  | zero =>
    simp only [consume]
    exact ⟨(i,buffer,k),rfl,rfl⟩
  | succ n ih =>
    cases hs : k.stream with
    | nil =>
      simp only [consume,Takes,readConsole,GetChar_nil hs]
      rfl
    | cons c σ =>
      obtain ⟨k',hk,rfl⟩ := GetChar_cons hs
      by_cases hc : c = EOF
      · have hstop : isEOF c = true := by simpa [isEOF] using hc
        simp only [consume,hstop,if_true]
        refine ⟨(i,Function.update buffer i 0#8,k'),?_,rfl⟩
        simp only [readConsole,hk,bind,Except.bind,if_pos hc,pure,Except.pure]
      · have hgo : isEOF c = false := by simpa [isEOF] using hc
        simp only [consume,hgo,readConsole,hk,bind,Except.bind,if_neg hc]
        exact ih k' _ _

end Kernel

/-! Sequences of calls. -/

/-- The calls that read from the console, with the `length` of the caller. -/
inductive ConsoleCall
  | readChar | readString (length : ℕ) | readNum | read (length : ℕ)
  deriving DecidableEq, Repr

namespace ConsoleCall

open Kernel

/-- The part of a call that asks the console for characters, with the buffer it allocates. -/
def ask (k : Kernel) : ConsoleCall → Except Fault Kernel
  | .readChar => do return (← k.SysReadChar).2
  | .readString length => do return (← k.alloc.2.SysReadString k.alloc.1 length).2
  | .readNum => do return (← k.alloc.2.SysReadString k.alloc.1 12).2
  | .read length => do return (← k.alloc.2.readConsole k.alloc.1 0 length).2.2

def asks (k : Kernel) : List ConsoleCall → Except Fault Kernel
  | [] => return k
  | c :: calls => do asks (← c.ask k) calls

/-- The number of characters a call takes at most. -/
def limit : ConsoleCall → ℕ
  | .readChar => 1
  | .readString length | .read length => length
  | .readNum => 12

/-- The character after which a call takes no more. -/
def stops : ConsoleCall → Byte → Bool
  | .readChar, _ => false
  | .readString _, c | .readNum, c => endsLine c
  | .read _, c => isEOF c

theorem takes_bind {α : Type} {x : Except Fault α} {f : α → Kernel} {o : Option (List Byte)}
    (h : Takes x f o) : Takes (x >>= fun a => pure (f a)) id o := by
  cases o with
  | none =>
    rw [show x = .error .blocked from h]
    rfl
  | some σ =>
    obtain ⟨a,rfl,ha⟩ := h
    exact ⟨f a,rfl,ha⟩

theorem ask_takes (k : Kernel) (c : ConsoleCall) :
    Takes (c.ask k) id (consume c.stops k.stream c.limit) := by
  cases c with
  | readChar => exact takes_bind k.SysReadChar_takes
  | readString length => exact takes_bind (k.alloc.2.readString_takes k.alloc.1 0 length)
  | readNum => exact takes_bind (k.alloc.2.readString_takes k.alloc.1 0 12)
  | read length => exact takes_bind (k.alloc.2.readConsole_takes k.alloc.1 0 length)

end ConsoleCall

/-! The rest of the handlers does not wait for the console and takes nothing off it. -/

namespace Kernel

/-- The computation does not wait, and `P` holds of what it returns. -/
def Prompt {α : Type} (x : Except Fault α) (P : α → Prop) : Prop :=
  x ≠ .error .blocked ∧ ∀ a, x = .ok a → P a

variable {α β : Type} {x : Except Fault α} {f : α → Except Fault β} {P : α → Prop} {Q : β → Prop}

theorem Prompt.bind (hx : Prompt x P) (hf : ∀ a, P a → Prompt (f a) Q) : Prompt (x >>= f) Q := by
  cases x with
  | error e =>
    refine ⟨fun h => ?_,nofun⟩
    cases h
    exact hx.1 rfl
  | ok a => exact hf a (hx.2 a rfl)

theorem prompt_pure {a : α} (h : P a) : Prompt (pure a : Except Fault α) P := by
  refine ⟨nofun,fun b hb => ?_⟩
  cases hb
  exact h

theorem prompt_error {e : Fault} (h : e ≠ .blocked) : Prompt (.error e : Except Fault α) P := by
  refine ⟨fun he => ?_,nofun⟩
  cases he
  exact h rfl

theorem prompt_check (c : Prop) [Decidable c] : Prompt (check c) fun _ => True := by
  unfold check
  split
  · exact prompt_pure trivial
  · exact prompt_error nofun

theorem prompt_WriteRegister (k : Kernel) (num : ℕ) (value : ℤ) :
    Prompt (k.WriteRegister num value) fun k' => k'.stream = k.stream :=
  ((prompt_check _).bind (Q := fun _ => True) fun _ _ => prompt_pure trivial).bind fun _ _ =>
    prompt_pure rfl

theorem prompt_WriteMem (k : Kernel) (addr value : ℤ) :
    Prompt (k.WriteMem addr value) fun k' => k'.stream = k.stream := by
  have haccess : Prompt (k.machine.access (BitVec.ofInt 32 addr) 1 true) fun _ => True := by
    rw [Hardware.Machine.access_eq]
    split
    · exact prompt_pure trivial
    · refine (prompt_check _).bind fun _ _ => ?_
      split
      · exact prompt_pure trivial
      · exact (prompt_check _).bind fun _ _ => prompt_pure trivial
  refine Prompt.bind (P := fun _ => True) (haccess.bind fun r _ => ?_) fun r _ => ?_
  · split
    · exact prompt_pure trivial
    · split
      · exact prompt_pure trivial
      · exact prompt_error nofun
  · split
    · exact prompt_error nofun
    · exact prompt_pure rfl

theorem prompt_copyOut (k : Kernel) (virtAddr : ℤ) (buffer : Buffer) (keepNULL : Bool) (i n : ℕ) :
    Prompt (k.copyOut virtAddr buffer keepNULL i n) fun r => r.2.stream = k.stream := by
  induction n generalizing k i with
  | zero => exact prompt_pure rfl
  | succ n ih =>
    refine (prompt_WriteMem k _ _).bind fun k' hk' => ?_
    split
    · rw [← hk']
      exact ih k' (i + 1)
    · exact prompt_pure hk'

theorem prompt_System2User (k : Kernel) (virtAddr len : ℤ) (buffer : Buffer) (keepNULL : Bool) :
    Prompt (k.System2User virtAddr len buffer keepNULL) fun r => r.2.stream = k.stream := by
  unfold System2User
  split
  · exact prompt_pure rfl
  · split
    · exact prompt_pure rfl
    · exact prompt_copyOut k _ _ _ _ _

theorem prompt_printText (k : Kernel) (s : String) :
    Prompt (k.printText s) fun k' => k'.stream = k.stream := by
  have hprint : ∀ n i (k : Kernel),
      Prompt (k.printString (text s) i n) fun k' => k'.stream = k.stream := by
    intro n
    induction n with
    | zero => exact fun i k => prompt_error nofun
    | succ n ih =>
      intro i k
      simp only [printString]
      split
      · exact prompt_pure rfl
      · exact ih _ _
  exact hprint _ _ _

theorem prompt_lineLength (buffer : Buffer) (i n : ℕ) :
    Prompt (lineLength buffer i n) fun _ => True := by
  induction n generalizing i with
  | zero => exact prompt_error nofun
  | succ n ih =>
    simp only [lineLength]
    split
    · exact prompt_pure trivial
    · exact ih _

theorem prompt_parse (k : Kernel) (buffer : Buffer) (negative : Bool) (number : ℤ) (i n : ℕ) :
    Prompt (k.parse buffer negative number i n) fun r => r.2.stream = k.stream := by
  induction n generalizing number i with
  | zero => exact prompt_pure rfl
  | succ n ih =>
    simp only [parse]
    split
    · exact (prompt_printText k _).bind fun _ hk => prompt_pure hk
    · split
      · split
        · exact prompt_pure rfl
        · exact (prompt_printText k _).bind fun _ hk => prompt_pure hk
      · exact ih _ _

/-- The computation waits if there are not enough characters; else it leaves `σ` to the next
one, unless it fails for another reason. -/
def Settles (x : Except Fault α) (kernel : α → Kernel) : Option (List Byte) → Prop
  | none => x = .error .blocked
  | some σ => Prompt x fun a => (kernel a).stream = σ

variable {kernel : α → Kernel} {kernel' : β → Kernel} {o : Option (List Byte)}

theorem Takes.settles (h : Takes x kernel o) : Settles x kernel o := by
  cases o with
  | none => exact h
  | some σ =>
    obtain ⟨a,rfl,ha⟩ := h
    exact prompt_pure ha

theorem Settles.bind (h : Settles x kernel o)
    (hf : ∀ a, Prompt (f a) fun b => (kernel' b).stream = (kernel a).stream) :
    Settles (x >>= f) kernel' o := by
  cases o with
  | none =>
    rw [show x = .error .blocked from h]
    rfl
  | some σ =>
    refine Prompt.bind h fun a ha => ?_
    rw [← ha]
    exact hf a

end Kernel

namespace ConsoleCall

open Kernel

/-- The handler of a call, and what it finds in the registers. -/
def handler (k : Kernel) : ConsoleCall → Except Fault Kernel
  | .readChar => k.SystemCallReadChar
  | .readString _ => k.SystemCallReadString
  | .readNum => k.SystemCallReadNum
  | .read _ => k.SystemCallRead

def Requested (k : Kernel) : ConsoleCall → Prop
  | .readString length => k.ReadRegister 5 = .ok (length : ℤ) ∧ length < MAX_SIZE
  | .read length => k.ReadRegister 5 = .ok (length : ℤ) ∧ k.ReadRegister 6 = .ok 0
  | _ => True

theorem ReadRegister_ok (k : Kernel) (num : ℕ) (h : num < 40) :
    ∃ value, k.ReadRegister num = .ok value := by
  refine ⟨(k.machine.registers num).toInt,?_⟩
  simp only [Kernel.ReadRegister,Hardware.Machine.ReadRegister,check_of h]
  rfl

theorem SystemCallReadString_eq {k : Kernel} {virtualAddr : ℤ} {length : ℕ}
    (haddr : k.ReadRegister 4 = .ok virtualAddr) (hlength : k.ReadRegister 5 = .ok (length : ℤ))
    (hmax : length < MAX_SIZE) :
    k.SystemCallReadString = (k.alloc.2.SysReadString k.alloc.1 length >>= fun r =>
      r.2.System2User virtualAddr length r.1 false >>= fun s => pure s.2) := by
  have hin : ¬ ((length : ℤ) < 0 ∨ (length : ℤ) ≥ MAX_SIZE) := by omega
  unfold SystemCallReadString
  rw [haddr,hlength]
  exact if_neg hin

theorem SysReadNum_settles (k : Kernel) :
    Settles k.SysReadNum Prod.snd (consume endsLine k.stream 12) := by
  refine (k.alloc.2.readString_takes k.alloc.1 0 12).settles.bind fun r => ?_
  refine (prompt_lineLength r.1 0 12).bind fun len _ => ?_
  split
  · exact (prompt_printText r.2 _).bind fun _ hk => prompt_pure hk
  · exact prompt_parse r.2 _ _ _ _ _

/-- A handler takes the characters that the part of it which asks the console takes. -/
theorem handler_settles (k : Kernel) (c : ConsoleCall) (h : c.Requested k) :
    Settles (c.handler k) id (consume c.stops k.stream c.limit) := by
  cases c with
  | readChar => exact k.SysReadChar_takes.settles.bind fun r => prompt_WriteRegister r.2 _ _
  | readString length =>
    obtain ⟨hlength,hmax⟩ := h
    obtain ⟨virtualAddr,haddr⟩ := ReadRegister_ok k 4 (by decide)
    rw [handler,SystemCallReadString_eq haddr hlength hmax]
    refine (k.alloc.2.readString_takes k.alloc.1 0 length).settles.bind fun r => ?_
    exact (prompt_System2User r.2 _ _ _ _).bind fun _ hk => prompt_pure hk
  | readNum => exact (SysReadNum_settles k).bind fun r => prompt_WriteRegister r.2 _ _
  | read length =>
    obtain ⟨hlength,hfd⟩ := h
    obtain ⟨virtAddr,haddr⟩ := ReadRegister_ok k 4 (by decide)
    have heq : k.SystemCallRead = (k.alloc.2.readConsole k.alloc.1 0 length >>= fun r =>
        r.2.2.System2User virtAddr r.1 r.2.1 true >>= fun s => s.2.WriteRegister 2 r.1) := by
      unfold SystemCallRead
      rw [haddr,hlength,hfd]
      simp only [bind,Except.bind,inBounds_of (Int.natCast_nonneg length)]
      rfl
    rw [handler,heq]
    refine (k.alloc.2.readConsole_takes k.alloc.1 0 length).settles.bind fun r => ?_
    refine (prompt_System2User r.2.2 _ _ _ _).bind fun s hs => ?_
    rw [← hs]
    exact prompt_WriteRegister s.2 _ _

/-- The handlers of the calls have run one after the other.  Before and after each of them the
program goes on, which changes nothing about the console. -/
inductive Handled : Kernel → List ConsoleCall → Kernel → Prop
  | nil {k k' : Kernel} (hprogram : k'.stream = k.stream) : Handled k [] k'
  | cons {k k₁ k₂ k' : Kernel} {c : ConsoleCall} {calls : List ConsoleCall}
      (hprogram : k₁.stream = k.stream) (hrequest : c.Requested k₁)
      (hhandler : c.handler k₁ = .ok k₂) (hrest : Handled k₂ calls k') : Handled k (c :: calls) k'

/-- Each call in turn finds in what is left of the input its last character, or as many
characters as it takes at most. -/
def Served : List Byte → List ConsoleCall → Prop
  | _, [] => True
  | σ, c :: calls => (c.limit ≤ σ.length ∨ ∃ x ∈ σ, c.stops x) ∧
      Served (σ.drop (min c.limit (σ.findIdx c.stops + 1))) calls

/-- A handler that finds its characters takes them off the console; another one waits. -/
theorem handler_cases {k : Kernel} {c : ConsoleCall} (h : c.Requested k) :
    (c.limit ≤ k.stream.length ∨ ∃ x ∈ k.stream, c.stops x) ∧ (Prompt (c.handler k) fun k' =>
      k'.stream = k.stream.drop (min c.limit (k.stream.findIdx c.stops + 1))) ∨
    ¬ (c.limit ≤ k.stream.length ∨ ∃ x ∈ k.stream, c.stops x) ∧
      c.handler k = .error .blocked := by
  have hsettles := handler_settles k c h
  rw [consume_eq] at hsettles
  by_cases hfinds : c.limit ≤ k.stream.length ∨ ∃ x ∈ k.stream, c.stops x
  · rw [if_pos hfinds] at hsettles
    exact Or.inl ⟨hfinds,hsettles⟩
  · rw [if_neg hfinds] at hsettles
    exact Or.inr ⟨hfinds,hsettles⟩

/-- After the handlers of `calls`, the next one waits just if its characters are not left. -/
theorem Handled.waits_iff {k k' : Kernel} {calls : List ConsoleCall} (h : Handled k calls k')
    {c : ConsoleCall} (hc : c.Requested k') :
    c.handler k' = .error .blocked ↔ ¬ Served k.stream (calls ++ [c]) := by
  induction h with
  | nil hprogram =>
    simp only [List.nil_append,Served,and_true,← hprogram]
    rcases handler_cases hc with ⟨hfinds,hprompt⟩ | ⟨hfinds,hwaits⟩
    · exact iff_of_false hprompt.1 (not_not_intro hfinds)
    · exact iff_of_true hwaits hfinds
  | @cons _ _ k₂ _ _ _ hprogram hrequest hhandler _ ih =>
    rcases handler_cases hrequest with ⟨hfinds,hprompt⟩ | ⟨_,hwaits⟩
    · have hstream := hprompt.2 k₂ hhandler
      rw [hprogram] at hfinds hstream
      rw [ih hc,hstream,List.cons_append,Served,and_iff_right hfinds]
    · cases hhandler.symm.trans hwaits

/-- A sequence of calls completes exactly if each call finds its characters; otherwise one of
them asks for a character after the end of the input.  So it is with their handlers: after
some of them have run, the next one waits just in that case. -/
theorem console_calls_complete_iff (k : Kernel) (calls : List ConsoleCall) :
    ((∃ k', asks k calls = .ok k') ↔ Served k.stream calls) ∧
    (asks k calls = .error .blocked ↔ ¬ Served k.stream calls) ∧
    ∀ k' c, Handled k calls k' → c.Requested k' →
      (c.handler k' = .error .blocked ↔ ¬ Served k.stream (calls ++ [c])) := by
  rw [← and_assoc]
  refine ⟨?_,fun k' c h hc => h.waits_iff hc⟩
  induction calls generalizing k with
  | nil => simp [asks,Served,pure,Except.pure]
  | cons c calls ih =>
    have htakes := ask_takes k c
    rw [consume_eq] at htakes
    by_cases hfinds : c.limit ≤ k.stream.length ∨ ∃ x ∈ k.stream, c.stops x
    · rw [if_pos hfinds] at htakes
      obtain ⟨k',hk,hk'⟩ := htakes
      simp only [asks,hk,bind,Except.bind,Served,hfinds,true_and]
      rw [← hk']
      exact ih k'
    · rw [if_neg hfinds] at htakes
      simp only [asks,show c.ask k = .error .blocked from htakes,bind,Except.bind,Served,hfinds]
      simp

/-- A line that ends with the input is not the end of `ReadString`, and after the end was
returned the next call waits for it again. -/
theorem calls_wait_past_end :
    asks { exampleKernel 82 with console := ⟨[97#8,98#8],false,[]⟩ } [.readString 10] =
      .error .blocked ∧
    asks (exampleKernel 80) [.readChar,.readChar] = .error .blocked ∧
    asks (exampleKernel 7) [.read 4,.read 4] = .error .blocked ∧
    ∃ k, (exampleKernel 80).SystemCallReadChar = .ok k ∧ k.SystemCallReadChar = .error .blocked :=
  ⟨rfl,rfl,rfl,_,rfl,rfl⟩

end ConsoleCall
end NachOS
