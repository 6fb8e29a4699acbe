import Edelib.Foundation.CString
import Edelib.Foundation.Separated
import Edelib.Foundation.Transition
import Mathlib.Data.Int.DivMod

/-! # Messages of a connection

A client writes each message and a newline to a stream, and the server reads the stream
byte by byte into a buffer. Client and server take turns in any order, so the stream comes
in any pieces. A write outside of the buffer has no result.
-/
namespace Edelib.Sipc
open Foundation Separated

/-- `MSG_LEN_MAX` -/
def msgLenMax : ℕ := 1024

def newline : UInt8 := 10

structure Message where
  text : CString
  unbroken : newline ∉ text.bytes

namespace Message

def truncated (msg : Message) : CString :=
  ⟨msg.text.bytes.take msgLenMax,fun h => msg.text.nulFree (List.mem_of_mem_take h)⟩

def len (msg : Message) : ℤ := Int.bmod msg.text.strlen (2 ^ 32)

def sendLen (msg : Message) : ℤ := if msg.len > msgLenMax then msgLenMax else msg.len

/-- What is written before the newline; with a negative length `write` fails. -/
def body (msg : Message) : List UInt8 := msg.text.bytes.take msg.sendLen.toNat

end Message

def frames (msgs : List Message) : List UInt8 := trailing newline (msgs.map Message.body)

/-- The buffer of `server_cb` and the index of its next byte. -/
structure Reader where
  buf : List UInt8
  i : ℕ

def Reader.fresh : Reader := ⟨List.replicate msgLenMax 0,0⟩

/-- A byte that was read, and the message that the callback gets. The next call begins with
another buffer. -/
def Reader.take (r : Reader) (c : UInt8) : Option (Reader × Option CString) :=
  if c ≠ newline ∧ r.i < msgLenMax then
    if r.i < r.buf.length then some (⟨r.buf.set r.i c,r.i + 1⟩,none) else none
  else
    if r.i < r.buf.length then some (fresh,some (CString.ofBuf (r.buf.set r.i 0))) else none

structure Connection where
  unsent : List Message
  writing : List UInt8
  stream : List UInt8
  reader : Reader
  received : List CString

namespace Connection

def start (msgs : List Message) : Connection := ⟨msgs,[],[],.fresh,[]⟩

def Quiet (t : Connection) : Prop := t.unsent = [] ∧ t.writing = [] ∧ t.stream = []

/-- The messages so far, each once and in order, and all of them when nothing is left. -/
def Intact (msgs : List Message) (t : Connection) : Prop :=
  t.received <+: msgs.map Message.truncated ∧ (t.Quiet → t.received = msgs.map Message.truncated)

def work (t : Connection) : ℕ :=
  (t.unsent.map (fun msg => 2 * (frames [msg]).length + 1)).sum + 2 * t.writing.length + t.stream.length

end Connection

/-- The next message is sent, bytes of it come into the stream, or a byte is read. -/
inductive SipcAction
  | send
  | write (n : ℕ)
  | read
deriving DecidableEq

namespace SipcAction

def Applies (t : Connection) : SipcAction → Bool
  | send => !t.unsent.isEmpty && t.writing.isEmpty
  | write n => decide (0 < n ∧ n ≤ t.writing.length)
  | read => !t.stream.isEmpty

def effect (t : Connection) : SipcAction → Option Connection
  | send => match t.unsent with
    | [] => none
    | msg :: unsent => some { t with unsent, writing := frames [msg] }
  | write n => some { t with writing := t.writing.drop n, stream := t.stream ++ t.writing.take n }
  | read => match t.stream with
    | [] => none
    | c :: stream => (t.reader.take c).map fun r =>
      { t with stream, reader := r.1, received := t.received ++ r.2.toList }

def step (t : Connection) (a : SipcAction) : Option Connection := if a.Applies t then a.effect t else none

/-- Every access of the buffer is inside of it, and the messages are intact. -/
def Lawful (msgs : List Message) (t : Connection) (a : SipcAction) : Prop :=
  a.Applies t = true → ∃ t', a.step t = some t' ∧ t'.Intact msgs

end SipcAction
open SipcAction

/-- Every run is intact and ends, which it does when nothing is left. -/
structure Delivers (msgs : List Message) : Prop where
  lawful : ∀ acts, Transition.Along step (Lawful msgs) (Connection.start msgs) acts
  ends : ∀ acts t, Transition.exec step (Connection.start msgs) acts = some t →
    acts.length ≤ (Connection.start msgs).work ∧ (t.Quiet ∨ ∃ a : SipcAction, a.Applies t = true)

/-! ## The reader -/

structure Reader.Holds (r : Reader) (held : List UInt8) : Prop where
  i_eq : r.i = held.length
  buf_eq : r.buf = held ++ List.replicate (msgLenMax - held.length) 0

namespace Reader

theorem holds_fresh : fresh.Holds [] := ⟨rfl,rfl⟩

theorem Holds.buf_set {r : Reader} {held : List UInt8} (h : r.Holds held) (hlen : held.length < msgLenMax) (c : UInt8) :
    r.i < r.buf.length ∧ r.buf.set r.i c = held ++ c :: List.replicate (msgLenMax - (held.length + 1)) 0 := by
  obtain ⟨n,hn⟩ : ∃ n, msgLenMax - held.length = n + 1 := ⟨msgLenMax - held.length - 1,by omega⟩
  have hn' : msgLenMax - (held.length + 1) = n := by omega
  rw [h.i_eq,h.buf_eq,hn,hn',List.replicate_succ]
  exact ⟨by simp,by simp⟩

theorem Holds.take_byte {r : Reader} {held : List UInt8} (h : r.Holds held) (hlen : held.length < msgLenMax) {c : UInt8}
    (hc : c ≠ newline) : ∃ r', r.take c = some (r',none) ∧ r'.Holds (held ++ [c]) := by
  obtain ⟨hin,hset⟩ := h.buf_set hlen c
  refine ⟨⟨r.buf.set r.i c,r.i + 1⟩,?_,?_,?_⟩
  · rw [Reader.take,if_pos ⟨hc,h.i_eq ▸ hlen⟩,if_pos hin]
  · rw [h.i_eq,List.length_append,List.length_singleton]
  · rw [hset,List.length_append,List.length_singleton,List.append_assoc,List.singleton_append]

theorem Holds.take_newline {r : Reader} {text : CString} (h : r.Holds text.bytes) (hlen : text.strlen < msgLenMax) :
    r.take newline = some (fresh,some text) := by
  obtain ⟨hin,hset⟩ := h.buf_set hlen 0
  rw [Reader.take,if_neg (fun hc => hc.1 rfl),if_pos hin,hset,CString.ofBuf_bytes_append_nul]

/-- Whatever is read, no longer text than the buffer has place for is delivered. -/
theorem take_short {r r' : Reader} {c : UInt8} {text : CString} (hsize : r.buf.length = msgLenMax)
    (h : r.take c = some (r',some text)) : text.strlen < msgLenMax := by
  unfold Reader.take at h
  split_ifs at h with hc hin hin
  · cases h
  · obtain ⟨-,htext⟩ := Prod.mk.inj (Option.some.inj h)
    obtain rfl := Option.some.inj htext
    rw [List.set_eq_take_append_cons_drop,if_pos hin,CString.ofBuf_append_nul]
    have hle := (CString.ofBuf_begins (r.buf.take r.i)).length_le
    rw [List.length_take] at hle
    rw [CString.strlen]
    omega

theorem take_size {r r' : Reader} {c : UInt8} {out : Option CString} (hsize : r.buf.length = msgLenMax)
    (h : r.take c = some (r',out)) : r'.buf.length = msgLenMax := by
  unfold Reader.take at h
  split_ifs at h with hc hin hin
  · obtain ⟨rfl,-⟩ := Prod.mk.inj (Option.some.inj h)
    rw [List.length_set,hsize]
  · obtain ⟨rfl,-⟩ := Prod.mk.inj (Option.some.inj h)
    rw [fresh,List.length_replicate]

end Reader

/-! ## Frames -/

theorem Message.body_unbroken (msg : Message) : newline ∉ msg.body := fun h => msg.unbroken (List.mem_of_mem_take h)

theorem Message.body_of_short {msg : Message} (h : msg.text.strlen < msgLenMax) : msg.body = msg.text.bytes := by
  have hbound : msg.text.strlen < 1024 := h
  have hlen : msg.len = msg.text.strlen := Int.bmod_eq_of_le (by omega) (by omega)
  have hle : ¬ msg.len > msgLenMax := by omega
  rw [Message.body,Message.sendLen,if_neg hle,hlen,Int.toNat_natCast,CString.strlen,List.take_length]

theorem Message.truncated_of_short {msg : Message} (h : msg.text.strlen < msgLenMax) : msg.truncated = msg.text :=
  CString.ext (List.take_of_length_le (Nat.le_of_lt h))

theorem frames_cons (msg : Message) (msgs : List Message) : frames (msg :: msgs) = frames [msg] ++ frames msgs := by
  simp [frames,trailing]

/-! ## Runs with short messages -/

/-- What the reader holds, what is under way and what is not sent yet are the messages that
are still to be received. -/
structure Streams (msgs : List Message) (t : Connection) : Prop where
  ahead : ∃ done rest held, msgs = done ++ rest ∧ t.received = done.map Message.truncated ∧ t.reader.Holds held ∧
    newline ∉ held ∧ frames rest = held ++ (t.stream ++ (t.writing ++ frames t.unsent))

theorem streams_start (msgs : List Message) : Streams msgs (Connection.start msgs) :=
  ⟨[],msgs,[],rfl,rfl,Reader.holds_fresh,List.not_mem_nil,rfl⟩

theorem Streams.intact {msgs : List Message} {t : Connection} (h : Streams msgs t) : t.Intact msgs := by
  obtain ⟨done,rest,held,rfl,hreceived,-,hheld,hframes⟩ := h.ahead
  refine ⟨⟨rest.map Message.truncated,by rw [hreceived,List.map_append]⟩,fun hquiet => ?_⟩
  obtain ⟨hunsent,hwriting,hstream⟩ := hquiet
  rw [hunsent,hwriting,hstream] at hframes
  cases rest with
  | nil => rw [hreceived,List.append_nil]
  | cons msg rest =>
    have hmem : newline ∈ frames (msg :: rest) := by
      rw [frames,List.map_cons,trailing_cons]
      exact List.mem_append_right _ List.mem_cons_self
    rw [hframes] at hmem
    exact absurd (by simpa [frames,trailing] using hmem) hheld

theorem streams_read {msgs : List Message} (hshort : ∀ msg ∈ msgs, msg.text.strlen < msgLenMax) {t : Connection}
    (h : Streams msgs t) {c : UInt8} {stream : List UInt8} (hstream : t.stream = c :: stream) :
    ∃ r, t.reader.take c = some r ∧
      Streams msgs { t with stream, reader := r.1, received := t.received ++ r.2.toList } := by
  obtain ⟨done,rest,held,rfl,hreceived,hholds,hheld,hframes⟩ := h.ahead
  rw [hstream,List.cons_append] at hframes
  obtain ⟨part,parts,hparts,hcase⟩ := trailing_eq_append_cons hframes hheld (by
    intro part hpart
    obtain ⟨msg,-,rfl⟩ := List.mem_map.mp hpart
    exact msg.body_unbroken)
  obtain ⟨msg,rest,rfl,rfl,rfl⟩ := List.map_eq_cons_iff.mp hparts
  have hlen := hshort msg (List.mem_append_right done List.mem_cons_self)
  have hbody := Message.body_of_short hlen
  rw [hbody] at hcase
  rcases hcase with ⟨rfl,rfl,hafter⟩ | ⟨hc,hbegins⟩
  · refine ⟨_,hholds.take_newline hlen,done ++ [msg],rest,[],by simp,?_,Reader.holds_fresh,List.not_mem_nil,hafter.symm⟩
    rw [hreceived,List.map_append,List.map_singleton,Message.truncated_of_short hlen]
    rfl
  · have hfree : held.length < msgLenMax := by
      have hle := hbegins.length_le
      rw [List.length_append,List.length_singleton] at hle
      rw [CString.strlen] at hlen
      omega
    obtain ⟨r',htake,hholds'⟩ := hholds.take_byte hfree hc
    refine ⟨_,htake,done,msg :: rest,held ++ [c],rfl,?_,hholds',?_,?_⟩
    · rw [hreceived]
      exact List.append_nil _
    · exact fun hmem => (List.mem_append.mp hmem).elim hheld (fun heq => hc (List.mem_singleton.mp heq).symm)
    · rw [List.append_assoc,List.singleton_append]
      exact hframes

theorem streams_step {msgs : List Message} (hshort : ∀ msg ∈ msgs, msg.text.strlen < msgLenMax) {t : Connection}
    (h : Streams msgs t) {a : SipcAction} (ha : a.Applies t = true) : ∃ t', a.step t = some t' ∧ Streams msgs t' := by
  rw [step,if_pos ha]
  cases a with
  | send =>
    rw [Applies,Bool.and_eq_true,List.isEmpty_iff] at ha
    obtain ⟨done,rest,held,hmsgs,hreceived,hholds,hheld,hframes⟩ := h.ahead
    cases hunsent : t.unsent with
    | nil => simp [hunsent] at ha
    | cons msg unsent =>
      rw [hunsent,ha.2,List.nil_append,frames_cons] at hframes
      have heffect : effect t send = some { t with unsent, writing := frames [msg] } := by rw [effect,hunsent]
      refine ⟨_,heffect,⟨done,rest,held,hmsgs,hreceived,hholds,hheld,?_⟩⟩
      rw [hframes]
  | write n =>
    obtain ⟨done,rest,held,hmsgs,hreceived,hholds,hheld,hframes⟩ := h.ahead
    refine ⟨_,rfl,done,rest,held,hmsgs,hreceived,hholds,hheld,?_⟩
    rw [hframes,List.append_assoc,← List.append_assoc (t.writing.take n),List.take_append_drop]
  | read =>
    cases hstream : t.stream with
    | nil => simp [Applies,hstream] at ha
    | cons c stream =>
      obtain ⟨r,htake,hstreams⟩ := streams_read hshort h hstream
      exact ⟨_,by rw [effect,hstream]; exact congrArg (Option.map _) htake,hstreams⟩

/-! ## Every run ends -/

theorem applies_of_step {t t' : Connection} {a : SipcAction} (h : a.step t = some t') : a.Applies t = true := by
  unfold step at h
  split_ifs at h with ha
  exact ha

theorem step_cases {t t' : Connection} {a : SipcAction} (h : a.step t = some t') :
    (∃ msg unsent, t.unsent = msg :: unsent ∧ t.writing = [] ∧ t' = { t with unsent, writing := frames [msg] }) ∨
    (∃ n, 0 < n ∧ n ≤ t.writing.length ∧
      t' = { t with writing := t.writing.drop n, stream := t.stream ++ t.writing.take n }) ∨
    ∃ c stream r, t.stream = c :: stream ∧ t.reader.take c = some r ∧
      t' = { t with stream, reader := r.1, received := t.received ++ r.2.toList } := by
  have ha := applies_of_step h
  rw [step,if_pos ha] at h
  cases a with
  | send =>
    rw [Applies,Bool.and_eq_true,List.isEmpty_iff] at ha
    unfold effect at h
    cases hunsent : t.unsent with
    | nil => rw [hunsent] at h; cases h
    | cons msg unsent =>
      rw [hunsent] at h
      exact Or.inl ⟨msg,unsent,rfl,ha.2,(Option.some.inj h).symm⟩
  | write n =>
    obtain ⟨hpos,hle⟩ := of_decide_eq_true ha
    exact Or.inr (Or.inl ⟨n,hpos,hle,(Option.some.inj h).symm⟩)
  | read =>
    unfold effect at h
    cases hstream : t.stream with
    | nil => rw [hstream] at h; cases h
    | cons c stream =>
      rw [hstream] at h
      obtain ⟨r,htake,ht'⟩ := Option.map_eq_some_iff.mp h
      exact Or.inr (Or.inr ⟨c,stream,r,rfl,htake,ht'.symm⟩)

theorem work_step {t t' : Connection} {a : SipcAction} (h : a.step t = some t') : t'.work < t.work := by
  obtain ⟨msg,unsent,hunsent,hwriting,rfl⟩ | ⟨n,hpos,hle,rfl⟩ | ⟨c,stream,r,hstream,-,rfl⟩ := step_cases h
  · rw [Connection.work,Connection.work,hunsent,hwriting,List.map_cons,List.sum_cons,List.length_nil]
    dsimp only
    omega
  · rw [Connection.work,Connection.work,List.length_append,List.length_drop,List.length_take]
    dsimp only
    omega
  · rw [Connection.work,Connection.work,hstream,List.length_cons]
    dsimp only
    omega

theorem applies_of_not_quiet {t : Connection} (h : ¬ t.Quiet) : ∃ a : SipcAction, a.Applies t = true := by
  by_cases hstream : t.stream = []
  · by_cases hwriting : t.writing = []
    · have hunsent : t.unsent ≠ [] := fun hunsent => h ⟨hunsent,hwriting,hstream⟩
      exact ⟨send,by simpa [Applies,hwriting] using hunsent⟩
    · have hpos := List.length_pos_iff.mpr hwriting
      exact ⟨.write 1,decide_eq_true ⟨Nat.one_pos,hpos⟩⟩
  · exact ⟨.read,by simpa [Applies] using hstream⟩

theorem ends (msgs : List Message) (acts : List SipcAction) (t : Connection)
    (hrun : Transition.exec step (Connection.start msgs) acts = some t) :
    acts.length ≤ (Connection.start msgs).work ∧ (t.Quiet ∨ ∃ a : SipcAction, a.Applies t = true) :=
  ⟨Transition.exec_length_le (I := fun _ => True) (fun _ _ _ _ hstep => ⟨True.intro,work_step hstep⟩) True.intro hrun,
    or_iff_not_imp_left.mpr applies_of_not_quiet⟩

/-! ## What can be received -/

/-- Whatever is sent, what is received is shorter than the buffer. -/
theorem received_short {msgs : List Message} {acts : List SipcAction} {t : Connection}
    (hrun : Transition.exec step (Connection.start msgs) acts = some t) :
    t.reader.buf.length = msgLenMax ∧ ∀ text ∈ t.received, text.strlen < msgLenMax := by
  refine Transition.exec_invariant (C := fun _ _ => True)
    (I := fun _ t => t.reader.buf.length = msgLenMax ∧ ∀ text ∈ t.received, text.strlen < msgLenMax)
    ⟨List.length_replicate,fun _ htext => absurd htext List.not_mem_nil⟩ ?_ (fun _ _ _ _ _ _ => True.intro) hrun
  rintro - a t t' - ⟨hsize,hshort⟩ - h
  obtain ⟨msg,unsent,-,-,rfl⟩ | ⟨n,-,-,rfl⟩ | ⟨c,stream,r,-,htake,rfl⟩ := step_cases h
  · exact ⟨hsize,hshort⟩
  · exact ⟨hsize,hshort⟩
  · refine ⟨Reader.take_size hsize htake,fun text htext => ?_⟩
    rcases List.mem_append.mp htext with hmem | hmem
    · exact hshort text hmem
    · rw [Option.mem_toList] at hmem
      exact Reader.take_short hsize (htake.trans (congrArg some (Prod.ext rfl hmem)))

/-- In a lawful run the connection is intact from the beginning to the end. -/
theorem intact_of_lawful {msgs : List Message}
    (h : ∀ acts, Transition.Along step (Lawful msgs) (Connection.start msgs) acts) {acts : List SipcAction}
    {t : Connection} (hrun : Transition.exec step (Connection.start msgs) acts = some t) : t.Intact msgs := by
  rcases List.eq_nil_or_concat acts with rfl | ⟨before,a,rfl⟩
  · obtain rfl := Option.some.inj hrun
    exact (streams_start msgs).intact
  · rw [List.concat_eq_append,Transition.exec_snoc] at hrun
    obtain ⟨s,hbefore,hstep⟩ := Option.bind_eq_some_iff.mp hrun
    obtain ⟨t',hstep',hintact⟩ := (h (before ++ [a])).last hbefore (applies_of_step hstep)
    rw [hstep] at hstep'
    exact Option.some.inj hstep' ▸ hintact

theorem short_of_delivers {msgs : List Message} (h : Delivers msgs) : ∀ msg ∈ msgs, msg.text.strlen < msgLenMax := by
  obtain ⟨acts,t,hrun,hquiet⟩ : ∃ acts t, Transition.exec step (Connection.start msgs) acts = some t ∧ t.Quiet := by
    have hnone : Transition.exec step (Connection.start msgs) [] = some (Connection.start msgs) := rfl
    refine Transition.exec_final (fun _ _ _ => work_step) hnone (fun acts t hrun hquiet => ?_)
    obtain ⟨a,ha⟩ := applies_of_not_quiet hquiet
    obtain ⟨t',hstep,-⟩ := (h.lawful (acts ++ [a])).last hrun ha
    exact ⟨a,t',hstep⟩
  have hall : t.received = msgs.map Message.truncated := (intact_of_lawful h.lawful hrun).2 hquiet
  intro msg hmsg
  have hlt := (received_short hrun).2 msg.truncated (hall ▸ List.mem_map_of_mem hmsg)
  rw [CString.strlen,Message.truncated,List.length_take] at hlt
  rw [CString.strlen]
  omega

/-- Messages arrive intact and in order, in every run, if and only if each is shorter than the
buffer. -/
theorem messages_intact_iff (msgs : List Message) : Delivers msgs ↔ ∀ msg ∈ msgs, msg.text.strlen < msgLenMax := by
  refine ⟨short_of_delivers,fun hshort => ⟨fun acts => ?_,ends msgs⟩⟩
  refine Transition.Along.imp (C := fun _ _ => True) (I := Streams msgs) (fun t a hstreams _ ha => ?_)
    (fun t a t' hstreams _ hstep => ?_) (streams_start msgs) (fun _ _ _ _ _ _ => True.intro)
  · obtain ⟨t',hstep,hstreams'⟩ := streams_step hshort hstreams ha
    exact ⟨t',hstep,hstreams'.intact⟩
  · obtain ⟨t₁,hstep₁,hstreams'⟩ := streams_step hshort hstreams (applies_of_step hstep)
    rw [hstep] at hstep₁
    exact Option.some.inj hstep₁ ▸ hstreams'

def longest : Message where
  text := ⟨List.replicate msgLenMax 97,fun h => absurd (List.eq_of_mem_replicate h) (by decide)⟩
  unbroken := fun h => absurd (List.eq_of_mem_replicate h) (by decide)

/-- The terminator of a message of the greatest length is written behind the buffer. -/
theorem messages_not_intact : ¬ Delivers [longest] := by
  intro h
  have hlt := short_of_delivers h longest (List.mem_singleton_self _)
  rw [CString.strlen,longest,List.length_replicate] at hlt
  exact Nat.lt_irrefl _ hlt

end Edelib.Sipc
