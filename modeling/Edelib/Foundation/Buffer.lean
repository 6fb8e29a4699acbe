import Mathlib.Algebra.Order.Ring.Int
import Mathlib.Data.List.Basic

/-! # Byte buffers

A writer fills a block of memory from a position; a reader walks one. Positions are
the program's own, so an access can lie outside: a write outside has no result, and
a read outside is a fault. The reader records every access it makes.
-/
namespace Edelib.Foundation

structure Buffer where
  data : List UInt8
  pos : ℕ

namespace Buffer

def put (b : Buffer) (bs : List UInt8) : Option Buffer :=
  if b.pos + bs.length ≤ b.data.length then
    some ⟨b.data.take b.pos ++ bs ++ b.data.drop (b.pos + bs.length),b.pos + bs.length⟩
  else none

def skip (b : Buffer) (n : ℕ) : Buffer := { b with pos := b.pos + n }

structure Wrote (b : Buffer) (done free : List UInt8) : Prop where
  data_eq : b.data = done ++ free
  pos_eq : b.pos = done.length

theorem Wrote.put {b : Buffer} {done free : List UInt8} (h : b.Wrote done free) (bs : List UInt8)
    (hlen : bs.length ≤ free.length) :
    ∃ b', b.put bs = some b' ∧ b'.Wrote (done ++ bs) (free.drop bs.length) := by
  have hfit : b.pos + bs.length ≤ b.data.length := by
    rw [h.pos_eq,h.data_eq,List.length_append]
    omega
  refine ⟨_,if_pos hfit,?_,?_⟩
  · simp [h.pos_eq,h.data_eq]
  · simp [h.pos_eq]

theorem Wrote.skip {b : Buffer} {done free : List UInt8} (h : b.Wrote done free) (n : ℕ)
    (hlen : n ≤ free.length) : (b.skip n).Wrote (done ++ free.take n) (free.drop n) := by
  constructor
  · rw [List.append_assoc,List.take_append_drop]
    exact h.data_eq
  · simp [Buffer.skip,h.pos_eq,hlen]

def Writes (f : Buffer → Option Buffer) (bs : List UInt8) : Prop :=
  ∀ (b : Buffer) (done free : List UInt8), b.Wrote done free → bs.length ≤ free.length →
    ∃ b', f b = some b' ∧ b'.Wrote (done ++ bs) (free.drop bs.length)

theorem writes_put (bs : List UInt8) : Writes (fun b => b.put bs) bs :=
  fun _ _ _ hb hlen => hb.put bs hlen

theorem writes_some : Writes some [] := fun b done free hb _ => ⟨b,rfl,by simpa using hb⟩

theorem Writes.bind {f g : Buffer → Option Buffer} {bs cs : List UInt8} (hf : Writes f bs)
    (hg : Writes g cs) : Writes (fun b => f b >>= g) (bs ++ cs) := by
  intro b done free hb hlen
  rw [List.length_append] at hlen
  obtain ⟨b₁,hfb,hb₁⟩ := hf b done free hb (by omega)
  obtain ⟨b₂,hgb,hb₂⟩ := hg b₁ (done ++ bs) (free.drop bs.length) hb₁ (by rw [List.length_drop]; omega)
  refine ⟨b₂,?_,?_⟩
  · change (f b).bind g = some b₂
    rw [hfb,Option.bind_some,hgb]
  · simpa only [List.append_assoc,List.drop_drop,List.length_append] using hb₂

theorem Wrote.of_put {b b' : Buffer} {done free bs : List UInt8} (h : b.Wrote done free)
    (hput : b.put bs = some b') : b'.Wrote (done ++ bs) (free.drop bs.length) := by
  have hfit : bs.length ≤ free.length := by
    unfold Buffer.put at hput
    split_ifs at hput with hle
    rw [h.pos_eq,h.data_eq,List.length_append] at hle
    omega
  obtain ⟨b₁,hput₁,hb₁⟩ := h.put bs hfit
  cases hput.symm.trans hput₁
  exact hb₁

structure Extends (b b' : Buffer) : Prop where
  le : b.pos ≤ b'.pos
  kept : b'.data.take b.pos = b.data.take b.pos

theorem Extends.trans {b b' b'' : Buffer} (h : b.Extends b') (h' : b'.Extends b'') : b.Extends b'' := by
  refine ⟨Nat.le_trans h.le h'.le,?_⟩
  have hkept := congrArg (List.take b.pos) h'.kept
  rw [List.take_take,List.take_take,Nat.min_eq_left h.le] at hkept
  exact hkept.trans h.kept

def Advances (f : Buffer → Option Buffer) : Prop := ∀ b b', f b = some b' → b.Extends b'

theorem advances_put (bs : List UInt8) : Advances (fun b => b.put bs) := by
  intro b b' h
  simp only [put] at h
  split_ifs at h with hfit
  cases h
  refine ⟨Nat.le_add_right _ _,?_⟩
  have hlen : (b.data.take b.pos).length = b.pos := by
    rw [List.length_take]
    omega
  rw [List.append_assoc,List.take_left' hlen]

theorem advances_some : Advances some := by
  rintro b _ ⟨⟩
  exact ⟨Nat.le_refl _,rfl⟩

theorem Advances.bind {f g : Buffer → Option Buffer} (hf : Advances f) (hg : Advances g) :
    Advances (fun b => f b >>= g) := by
  intro b b'' h
  obtain ⟨b',hfb,hgb⟩ := Option.bind_eq_some_iff.mp h
  exact (hf b b' hfb).trans (hg b' b'' hgb)

end Buffer

/-! ## Reading -/

/-- An access of a reader: a field of `n` bytes read, a block of `n` bytes copied,
or the position moved. -/
inductive Access
  | fetch (pos : ℤ) (n : ℕ)
  | copy (pos : ℤ) (n : ℕ)
  | seek (pos pos' : ℤ)

/-- An access inside a block of `len` bytes; the position only moves forwards. -/
def Access.Safe (len : ℕ) : Access → Prop
  | fetch pos n => 0 ≤ pos ∧ pos + n ≤ len
  | copy pos n => 0 ≤ pos ∧ pos + n ≤ len ∧ (n : ℤ) ≤ len - pos
  | seek pos pos' => pos ≤ pos'

instance (len : ℕ) : (a : Access) → Decidable (a.Safe len)
  | .fetch pos n => inferInstanceAs (Decidable (0 ≤ pos ∧ pos + n ≤ len))
  | .copy pos n => inferInstanceAs (Decidable (0 ≤ pos ∧ pos + n ≤ len ∧ (n : ℤ) ≤ len - pos))
  | .seek pos pos' => inferInstanceAs (Decidable (pos ≤ pos'))

structure Reader where
  data : List UInt8
  pos : ℤ
  trace : List Access

inductive Outcome (α : Type)
  | ok (a : α)
  | fail
  | fault
deriving DecidableEq

/-- Reading may succeed, give up, or read outside the block. -/
def Decoder (α : Type) := Reader → Outcome α × Reader

namespace Decoder

instance : Monad Decoder where
  pure a := fun r => (.ok a,r)
  bind d f := fun r =>
    match d r with
    | (.ok a,r) => f a r
    | (.fail,r) => (.fail,r)
    | (.fault,r) => (.fault,r)

def fail {α : Type} : Decoder α := fun r => (.fail,r)

def bytesLeft : Decoder ℤ := fun r => (.ok (r.data.length - r.pos),r)

def peek (n : ℕ) (r : Reader) : Outcome (List UInt8) :=
  if 0 ≤ r.pos ∧ r.pos + n ≤ r.data.length then .ok ((r.data.drop r.pos.toNat).take n) else .fault

def fetch (n : ℕ) : Decoder (List UInt8) := fun r =>
  (peek n r,{ r with pos := r.pos + n, trace := r.trace ++ [.fetch r.pos n] })

def copy (n : ℕ) : Decoder (List UInt8) := fun r =>
  (peek n r,{ r with trace := r.trace ++ [.copy r.pos n] })

def seek (d : ℤ) : Decoder Unit := fun r =>
  (.ok (),{ r with pos := r.pos + d, trace := r.trace ++ [.seek r.pos (r.pos + d)] })

variable {α β : Type}

theorem bind_ok {d : Decoder α} {r r' : Reader} {a : α} (h : d r = (.ok a,r')) (f : α → Decoder β) :
    (d >>= f) r = f a r' := by
  change (match d r with
    | (.ok a,r) => f a r
    | (.fail,r) => (.fail,r)
    | (.fault,r) => (.fault,r)) = f a r'
  rw [h]

theorem bind_fail {d : Decoder α} {r r' : Reader} (h : d r = (.fail,r')) (f : α → Decoder β) :
    (d >>= f) r = (.fail,r') := by
  change (match d r with
    | (.ok a,r) => f a r
    | (.fail,r) => (.fail,r)
    | (.fault,r) => (.fault,r)) = (.fail,r')
  rw [h]

theorem bind_fault {d : Decoder α} {r r' : Reader} (h : d r = (.fault,r')) (f : α → Decoder β) :
    (d >>= f) r = (.fault,r') := by
  change (match d r with
    | (.ok a,r) => f a r
    | (.fail,r) => (.fail,r)
    | (.fault,r) => (.fault,r)) = (.fault,r')
  rw [h]

end Decoder

/-! ## What a decoder does at a position -/

/-- A reader of `data` that stands at `pos` and has made only safe accesses. -/
structure Reader.Sound (r : Reader) (data : List UInt8) (pos : ℕ) : Prop where
  data_eq : r.data = data
  pos_eq : r.pos = pos
  safe : ∀ a ∈ r.trace, a.Safe data.length

theorem Reader.sound_start (data : List UInt8) : (Reader.mk data 0 []).Sound data 0 :=
  ⟨rfl,rfl,by simp⟩

theorem Reader.Sound.log {r : Reader} {data : List UInt8} {pos : ℕ} (h : r.Sound data pos) {a : Access}
    (ha : a.Safe data.length) : ∀ b ∈ r.trace ++ [a], b.Safe data.length := by
  intro b hb
  rcases List.mem_append.mp hb with hb | hb
  · exact h.safe b hb
  · rw [List.mem_singleton.mp hb]
    exact ha

namespace Decoder
variable {α β : Type} (d : Decoder α) (data : List UInt8) (pos : ℕ)

/-- From `pos` the decoder safely reads `a`, up to `pos'`. -/
def Completes (pos' : ℕ) (a : α) : Prop :=
  ∀ r : Reader, r.Sound data pos → ∃ r', d r = (.ok a,r') ∧ r'.Sound data pos'

def Refuses : Prop :=
  ∀ r : Reader, r.Sound data pos → ∃ r' pos', d r = (.fail,r') ∧ r'.Sound data pos'

/-- From `pos` the decoder makes an access that is not safe. -/
def Faults : Prop :=
  ∀ r : Reader, r.Sound data pos → ∃ r', d r = (.fault,r') ∧ ¬ ∀ a ∈ r'.trace, a.Safe data.length

variable {d data pos} {f : α → Decoder β} {pos' pos'' n : ℕ} {a : α} {b : β}

theorem completes_pure : Completes (pure a) data pos pos a := fun r h => ⟨r,rfl,h⟩

theorem refuses_fail : Refuses (fail : Decoder α) data pos := fun r h => ⟨r,pos,rfl,h⟩

theorem Completes.bind (h : Completes d data pos pos' a) (hf : Completes (f a) data pos' pos'' b) :
    Completes (d >>= f) data pos pos'' b := by
  intro r hr
  obtain ⟨r',hd,hr'⟩ := h r hr
  rw [bind_ok hd]
  exact hf r' hr'

theorem Completes.bind_refuses (h : Completes d data pos pos' a) (hf : Refuses (f a) data pos') :
    Refuses (d >>= f) data pos := by
  intro r hr
  obtain ⟨r',hd,hr'⟩ := h r hr
  rw [bind_ok hd]
  exact hf r' hr'

theorem Completes.bind_faults (h : Completes d data pos pos' a) (hf : Faults (f a) data pos') :
    Faults (d >>= f) data pos := by
  intro r hr
  obtain ⟨r',hd,hr'⟩ := h r hr
  rw [bind_ok hd]
  exact hf r' hr'

theorem Refuses.bind (h : Refuses d data pos) : Refuses (d >>= f) data pos := by
  intro r hr
  obtain ⟨r',p,hd,hr'⟩ := h r hr
  exact ⟨r',p,bind_fail hd f,hr'⟩

theorem Faults.bind (h : Faults d data pos) : Faults (d >>= f) data pos := by
  intro r hr
  obtain ⟨r',hd,hr'⟩ := h r hr
  exact ⟨r',bind_fault hd f,hr'⟩

variable (d data pos) in
def Harmless : Prop := (∃ pos' a, Completes d data pos pos' a) ∨ Refuses d data pos

theorem Completes.bind_harmless (h : Completes d data pos pos' a) (hf : Harmless (f a) data pos') :
    Harmless (d >>= f) data pos := by
  rcases hf with ⟨p,b,hf⟩ | hf
  · exact Or.inl ⟨p,b,h.bind hf⟩
  · exact Or.inr (h.bind_refuses hf)

theorem Harmless.safe (h : Harmless d data pos) {r : Reader} (hr : r.Sound data pos) :
    ∀ a ∈ (d r).2.trace, a.Safe data.length := by
  rcases h with ⟨p,a,h⟩ | h
  · obtain ⟨r',hd,hr'⟩ := h r hr
    rw [hd]
    exact hr'.safe
  · obtain ⟨r',p,hd,hr'⟩ := h r hr
    rw [hd]
    exact hr'.safe

theorem Faults.not_safe (h : Faults d data pos) {r : Reader} (hr : r.Sound data pos) :
    ¬ ∀ a ∈ (d r).2.trace, a.Safe data.length := by
  obtain ⟨r',hd,hr'⟩ := h r hr
  rw [hd]
  exact hr'

theorem completes_bytesLeft : Completes bytesLeft data pos pos (data.length - pos : ℤ) := by
  intro r h
  refine ⟨r,?_,h⟩
  rw [bytesLeft,h.data_eq,h.pos_eq]

theorem peek_inside {r : Reader} (h : r.Sound data pos) (hn : pos + n ≤ data.length) :
    peek n r = .ok ((data.drop pos).take n) := by
  rw [peek,h.data_eq,h.pos_eq,if_pos ⟨by omega,by omega⟩,Int.toNat_natCast]

theorem completes_fetch (hn : pos + n ≤ data.length) :
    Completes (fetch n) data pos (pos + n) ((data.drop pos).take n) := by
  intro r h
  refine ⟨{ r with pos := r.pos + n, trace := r.trace ++ [.fetch r.pos n] },
    Prod.ext (peek_inside h hn) rfl,h.data_eq,by simp [h.pos_eq],h.log ?_⟩
  simp only [Access.Safe,h.pos_eq]
  omega

theorem completes_copy (hn : pos + n ≤ data.length) :
    Completes (copy n) data pos pos ((data.drop pos).take n) := by
  intro r h
  refine ⟨_,Prod.ext (peek_inside h hn) rfl,h.data_eq,h.pos_eq,h.log ?_⟩
  simp only [Access.Safe,h.pos_eq]
  omega

theorem faults_copy (hn : data.length < pos + n) : Faults (copy n) data pos := by
  intro r h
  have hout : ¬ (0 ≤ r.pos ∧ r.pos + n ≤ r.data.length) := by
    rw [h.data_eq,h.pos_eq]
    omega
  refine ⟨_,Prod.ext (if_neg hout) rfl,fun hall => hout ?_⟩
  have hsafe := hall (.copy r.pos n) (List.mem_append_right _ List.mem_cons_self)
  rw [h.data_eq]
  exact ⟨hsafe.1,hsafe.2.1⟩

theorem completes_seek : Completes (seek n) data pos (pos + n) () := by
  intro r h
  refine ⟨_,rfl,h.data_eq,by simp [h.pos_eq],h.log ?_⟩
  simp only [Access.Safe]
  omega

end Decoder
end Edelib.Foundation
