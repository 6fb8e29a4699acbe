import Edelib.Foundation.Transition
import Edelib.Ipc.Listener
import Mathlib.Data.Fintype.Basic

/-! # The table of descriptors and what is registered

The size of the table counts cells when it grows and entries when it shrinks, and the
number of insertions is never taken back. So the table is what is registered as long as
one entry is added, and is not from the second on.
-/
namespace Edelib.Listener
open Foundation

/-! ## What is registered -/

structure Entry where
  fd : ℤ
  events : BitVec 32
  cb : ℕ
  arg : ℕ
deriving DecidableEq, Repr

def FD.entry (e : FD) : Entry := ⟨e.fd,e.events.signExtend 32,e.cb,e.arg⟩

def Entry.without (fd : ℤ) (when : BitVec 32) (e : Entry) : Option Entry :=
  if e.fd = fd then if e.events &&& ~~~ when = 0 then none else some { e with events := e.events &&& ~~~ when }
  else some e

def unregister (registry : List Entry) (fd : ℤ) (when : BitVec 32) : List Entry :=
  registry.filterMap (Entry.without fd when)

def register (registry : List Entry) (fd : ℤ) (when : BitVec 32) (cb arg : ℕ) : List Entry :=
  unregister registry fd when ++ [⟨fd,when,cb,arg⟩]

def Entry.ReadyIn (ready : FdSets) (e : Entry) : Prop := ∃ k a, slot e.fd = some a ∧ ready k a ∧ mentions e.events k

/-! ## Runs -/

inductive ListenerAction
  | add (fd : ℤ) (when : BitVec 32) (cb arg : ℕ)
  | remove (fd : ℤ) (when : BitVec 32)
  | wait (ready : Option FdSets)
  | scan
  | callbackReturns

/-- The state with what was registered, and what came and was called in the last wait. -/
structure Tracked where
  state : ListenerState
  registry : List Entry
  ready : Option FdSets
  called : List Entry
  changed : Bool

def Tracked.initial : Tracked := ⟨.initial,[],none,[],false⟩

namespace ListenerAction

/-- The registry is called outside of a wait or from a callback, and waits are not nested. -/
def Applies (t : Tracked) : ListenerAction → Bool
  | add .. => t.state.scan.all Scan.inCallback
  | remove .. => t.state.scan.all Scan.inCallback
  | wait _ => t.state.scan.isNone
  | scan => t.state.scan.any (fun sc => !sc.inCallback)
  | callbackReturns => t.state.scan.any Scan.inCallback

def effect (t : Tracked) : ListenerAction → Option Tracked
  | add fd when cb arg => (listenerAddFd t.state fd when cb arg).map fun s =>
    { t with state := s, registry := register t.registry fd when cb arg, changed := true }
  | remove fd when => (listenerRemoveFd t.state fd when).map fun s =>
    { t with state := s, registry := unregister t.registry fd when, changed := true }
  | wait ready => (startWait t.state ready).map fun s =>
    { t with state := s, ready, called := [], changed := false }
  | scan => t.state.scan.bind fun sc => (scanEntry t.state sc).map fun r =>
    { t with state := r.1, called := (r.2.map FD.entry).toList ++ t.called }
  | callbackReturns => t.state.scan.map fun sc =>
    { t with state := { t.state with scan := some { sc with i := sc.i + 1, inCallback := false } } }

def step (t : Tracked) (a : ListenerAction) : Option Tracked := if a.Applies t then a.effect t else none

end ListenerAction

/-- The cells that a wait scans have content, which is what is registered, and the sets hold
the descriptors for each of their events. -/
structure Exact (s : ListenerState) (registry : List Entry) : Prop where
  entries : ∃ entries, s.fdArraySize = entries.length ∧ Filled s.fdArray entries ∧ registry = entries.map FD.entry
  watched : ∀ k a, s.fdsets k a = true ↔ ∃ e ∈ registry, slot e.fd = some a ∧ mentions e.events k

/-- At the end of a wait without changes every entry with an event that has come was called. -/
def Tracked.AllCalled (t : Tracked) : Prop :=
  t.state.scan = none → t.changed = false → ∀ ready ∈ t.ready, ∀ e ∈ t.registry, e.ReadyIn ready → e ∈ t.called

namespace ListenerAction

/-- The table is exact after the action; what is called is registered, has an event that has
come and was not called before in the wait. -/
def Lawful (t : Tracked) (a : ListenerAction) : Prop :=
  a.Applies t = true → ∃ t', a.step t = some t' ∧ Exact t'.state t'.registry ∧ t'.AllCalled ∧
    ∀ e, t'.called = e :: t.called → e ∈ t.registry ∧ e ∉ t.called ∧ ∃ ready ∈ t.ready, e.ReadyIn ready

/-- There is a place in the sets for the descriptor, if it is put there at all. -/
def InRange (fd : ℤ) (when : BitVec 32) : Prop := (∃ k, mentions when k) → (slot fd).isSome

def Fits (events : BitVec 32) : Prop := (events.setWidth 16).signExtend 32 = events

/-- Nothing was added before, descriptor and masks have place, and a wait finds no descriptor
for which the sets have none. -/
def Meets (t : Tracked) (a : ListenerAction) : Prop :=
  a.Applies t = true → match a with
    | add fd when _ _ => t.state.nfds = 0 ∧ InRange fd when ∧ Fits when
    | remove fd when => InRange fd when ∧ ∀ e ∈ t.registry, e.fd = fd → Fits (e.events &&& ~~~ when)
    | wait _ => ∀ e ∈ t.registry, e.fd < fdSetSize
    | _ => True

end ListenerAction

/-! ## Sets -/

theorem slot_injective {fd fd' : ℤ} {a : Fin fdSetSize} (h : slot fd = some a) (h' : slot fd' = some a) : fd = fd' := by
  unfold slot at h h'
  split_ifs at h h' with hfd hfd'
  have hval := congrArg Fin.val ((Option.some.inj h).trans (Option.some.inj h').symm)
  dsimp only at hval
  omega

theorem slot_val {fd : ℤ} {a : Fin fdSetSize} (h : slot fd = some a) : (a : ℤ) = fd := by
  unfold slot at h
  split_ifs at h with hfd
  have hval := congrArg Fin.val (Option.some.inj h)
  dsimp only at hval
  omega

theorem changeSets_spec {fd : ℤ} {when : BitVec 32} (h : ListenerAction.InRange fd when) (v : Bool) (sets : FdSets) :
    ∃ sets', changeSets v sets fd when = some sets' ∧
      ∀ k b, sets' k b = if slot fd = some b ∧ mentions when k then v else sets k b := by
  unfold changeSets
  split_ifs with hk
  · obtain ⟨a,ha⟩ := Option.isSome_iff_exists.mp (h hk)
    refine ⟨_,by rw [ha]; rfl,fun k b => ?_⟩
    rw [ha]
    exact if_congr (and_congr_left' (by rw [Option.some.injEq,eq_comm])) rfl rfl
  · refine ⟨sets,rfl,fun k b => ?_⟩
    rw [if_neg (fun hb => hk ⟨k,hb.2⟩)]

theorem changeSets_none {fd : ℤ} {when : BitVec 32} (h : ¬ ListenerAction.InRange fd when) (v : Bool) (sets : FdSets) :
    changeSets v sets fd when = none := by
  obtain ⟨hk,hslot⟩ := Classical.not_imp.mp h
  rw [changeSets,if_pos hk,Option.not_isSome_iff_eq_none.mp hslot]
  rfl

theorem mentions_and_not (events when : BitVec 32) (k : Fin 3) :
    mentions (events &&& ~~~ when) k = (mentions events k && !mentions when k) := by
  have hbit : eventBit k < 32 := by revert k; decide
  simp [mentions,hbit]

theorem mentions_signExtend (events : BitVec 16) (k : Fin 3) :
    mentions (events.signExtend 32) k = mentions events k := by
  have hbit : eventBit k < 16 := by revert k; decide
  have hbit' : eventBit k < 32 := by omega
  rw [mentions,BitVec.getLsbD_signExtend,if_pos hbit,decide_eq_true hbit',Bool.true_and,mentions]

theorem ne_zero_of_mentions {events : BitVec 32} {k : Fin 3} (h : mentions events k = true) : events ≠ 0 := by
  rintro rfl
  simp [mentions] at h

/-! ## Masks -/

namespace ListenerAction

theorem fits_signExtend (events : BitVec 16) : Fits (events.signExtend 32) := by
  have hback : (events.signExtend 32).setWidth 16 = events := by
    apply BitVec.eq_of_getLsbD_eq
    intro i hi
    rw [BitVec.getLsbD_setWidth,BitVec.getLsbD_signExtend,if_pos hi,decide_eq_true hi,
      decide_eq_true (show i < 32 by omega),Bool.true_and,Bool.true_and]
  rw [Fits,hback]

theorem fits_zero : Fits 0 := rfl

end ListenerAction
open ListenerAction

theorem Exact.fits {s : ListenerState} {registry : List Entry} (h : Exact s registry) :
    ∀ e ∈ registry, Fits e.events := by
  obtain ⟨entries,-,-,rfl⟩ := h.entries
  intro e he
  obtain ⟨x,-,rfl⟩ := List.mem_map.mp he
  exact fits_signExtend x.events

/-- What is left of an entry is the entry without the events, if that fits. -/
theorem removeFrom_entry {fd : ℤ} {when : BitVec 32} {e : FD}
    (h : e.entry.fd = fd → Fits (e.entry.events &&& ~~~ when)) :
    (removeFrom fd when e).map FD.entry = e.entry.without fd when := by
  unfold removeFrom Entry.without
  by_cases hfd : e.fd = fd
  · have hfits : ((eventsLeft e.events when).setWidth 16).signExtend 32 = eventsLeft e.events when := h hfd
    rw [if_pos hfd,if_pos (show e.entry.fd = fd from hfd)]
    by_cases hleft : eventsLeft e.events when = 0
    · rw [if_pos hleft,if_pos (show e.entry.events &&& ~~~ when = 0 from hleft)]
      rfl
    · rw [if_neg hleft,if_neg (show ¬ e.entry.events &&& ~~~ when = 0 from hleft)]
      exact congrArg (fun m => some (Entry.mk e.fd m e.cb e.arg)) hfits
  · rw [if_neg hfd,if_neg (show ¬ e.entry.fd = fd from hfd)]
    rfl

theorem filterMap_removeFrom {fd : ℤ} {when : BitVec 32} {entries : List FD}
    (h : ∀ e ∈ entries.map FD.entry, e.fd = fd → Fits (e.events &&& ~~~ when)) :
    (entries.filterMap (removeFrom fd when)).map FD.entry = unregister (entries.map FD.entry) fd when := by
  rw [unregister,List.map_filterMap,List.filterMap_map]
  exact List.filterMap_congr (fun e he => removeFrom_entry (h e.entry (List.mem_map_of_mem he)))

theorem mem_unregister {registry : List Entry} {fd : ℤ} {when : BitVec 32} {e : Entry} :
    e ∈ unregister registry fd when ↔ ∃ e₀ ∈ registry, e₀.without fd when = some e := List.mem_filterMap

theorem watched_unregister (registry : List Entry) (fd : ℤ) (when : BitVec 32) (k : Fin 3) (a : Fin fdSetSize) :
    (∃ e ∈ unregister registry fd when, slot e.fd = some a ∧ mentions e.events k) ↔
      (∃ e ∈ registry, slot e.fd = some a ∧ mentions e.events k) ∧ ¬ (slot fd = some a ∧ mentions when k) := by
  constructor
  · rintro ⟨e,he,hslot,hk⟩
    obtain ⟨e₀,he₀,heq⟩ := mem_unregister.mp he
    unfold Entry.without at heq
    split_ifs at heq with hfd hleft
    · obtain rfl := Option.some.inj heq
      rw [mentions_and_not,Bool.and_eq_true,Bool.not_eq_true'] at hk
      exact ⟨⟨e₀,he₀,hslot,hk.1⟩,fun h => Bool.false_ne_true (hk.2.symm.trans h.2)⟩
    · obtain rfl := Option.some.inj heq
      exact ⟨⟨e₀,he₀,hslot,hk⟩,fun h => hfd (slot_injective hslot h.1)⟩
  · rintro ⟨⟨e,he,hslot,hk⟩,hnot⟩
    by_cases hfd : e.fd = fd
    · have hwhen : mentions when k = false := by
        simpa using fun h => hnot ⟨hfd ▸ hslot,h⟩
      have hk' : mentions (e.events &&& ~~~ when) k = true := by rw [mentions_and_not,hk,hwhen]; rfl
      refine ⟨{ e with events := e.events &&& ~~~ when },mem_unregister.mpr ⟨e,he,?_⟩,hslot,hk'⟩
      rw [Entry.without,if_pos hfd,if_neg (ne_zero_of_mentions hk')]
    · exact ⟨e,mem_unregister.mpr ⟨e,he,if_neg hfd⟩,hslot,hk⟩

/-! ## Changes of the table -/

theorem highest_ge (maxfd : ℤ) (entries : List FD) :
    maxfd ≤ highest maxfd entries ∧ ∀ e ∈ entries, e.fd ≤ highest maxfd entries := by
  induction entries generalizing maxfd with
  | nil => exact ⟨le_refl _,fun e he => absurd he List.not_mem_nil⟩
  | cons e entries ih =>
    obtain ⟨hmax,hentries⟩ := ih (max maxfd e.fd)
    refine ⟨(le_max_left _ _).trans hmax,fun e' he' => ?_⟩
    rcases List.mem_cons.mp he' with rfl | he'
    · exact (le_max_right _ _).trans hmax
    · exact hentries e' he'

theorem highest_mem (maxfd : ℤ) (entries : List FD) :
    highest maxfd entries = maxfd ∨ ∃ e ∈ entries, e.fd = highest maxfd entries := by
  induction entries generalizing maxfd with
  | nil => exact Or.inl rfl
  | cons e entries ih =>
    rcases ih (max maxfd e.fd) with heq | ⟨e',he',heq⟩
    · rcases max_choice maxfd e.fd with hmax | hmax
      · exact Or.inl (heq.trans hmax)
      · exact Or.inr ⟨e,List.mem_cons_self,(heq.trans hmax).symm⟩
    · exact Or.inr ⟨e',List.mem_cons_of_mem e he',heq⟩

/-- A removal in range keeps the table exact, if what is left fits. -/
theorem exact_remove {s : ListenerState} {registry : List Entry} (h : Exact s registry) {fd : ℤ} {when : BitVec 32}
    (hrange : InRange fd when) (hfits : ∀ e ∈ registry, e.fd = fd → Fits (e.events &&& ~~~ when)) :
    ∃ s', listenerRemoveFd s fd when = some s' ∧ Exact s' (unregister registry fd when) ∧
      s'.nfds = s.nfds ∧ s'.scan = s.scan ∧ s'.fdArray.length = s.fdArray.length ∧
      (∀ e ∈ unregister registry fd when, e.fd ≤ s'.maxfd) ∧
      (s'.maxfd ≤ 0 ∨ ∃ e ∈ unregister registry fd when, e.fd = s'.maxfd) := by
  obtain ⟨entries,hsize,hfilled,rfl⟩ := h.entries
  obtain ⟨cells,hlen,hcells,heq⟩ := listenerRemoveFd_spec fd when hsize hfilled
  obtain ⟨sets,hsets,hsets_eq⟩ := changeSets_spec hrange false s.fdsets
  rw [hsets] at heq
  refine ⟨_,heq,⟨⟨_,rfl,hcells,(filterMap_removeFrom hfits).symm⟩,fun k a => ?_⟩,rfl,rfl,hlen,?_,?_⟩
  · rw [watched_unregister,← h.watched]
    dsimp only
    rw [hsets_eq]
    split_ifs with hwhen
    · simp [hwhen]
    · simp [hwhen]
  · intro e he
    rw [← filterMap_removeFrom hfits] at he
    obtain ⟨x,hx,rfl⟩ := List.mem_map.mp he
    exact (highest_ge _ _).2 x hx
  · rw [← filterMap_removeFrom hfits]
    rcases highest_mem (-1) (entries.filterMap (removeFrom fd when)) with hnone | ⟨x,hx,hmax⟩
    · exact Or.inl (hnone.le.trans (show (-1 : ℤ) ≤ 0 by decide))
    · exact Or.inr ⟨x.entry,List.mem_map_of_mem hx,hmax⟩

/-- Without a place in the sets a removal writes outside of them. -/
theorem remove_none {s : ListenerState} {registry : List Entry} (h : Exact s registry) {fd : ℤ} {when : BitVec 32}
    (hrange : ¬ InRange fd when) : listenerRemoveFd s fd when = none := by
  obtain ⟨entries,hsize,hfilled,-⟩ := h.entries
  obtain ⟨cells,-,-,heq⟩ := listenerRemoveFd_spec fd when hsize hfilled
  rw [heq,changeSets_none hrange,Option.map_none]

/-! ## The invariant -/

structure Scanning (t : Tracked) (sc : Scan) : Prop where
  ready : ∃ ready, t.ready = some ready ∧ (∀ k a, sc.fdtmp k a = true → ready k a = true) ∧
    (t.changed = false → sc.fdtmp = readyOf t.state.fdsets t.state.maxfd ready)
  inRange : ∀ e ∈ t.registry, (slot e.fd).isSome
  fresh : sc.i = 0 → sc.inCallback = false → t.called = []
  first : sc.inCallback = true → sc.i = 0
  passed : t.changed = false → 0 < sc.i ∨ sc.inCallback = true →
    ∀ ready ∈ t.ready, ∀ e ∈ t.registry, e.ReadyIn ready → e ∈ t.called

/-- At most one entry was ever added. -/
structure Good (t : Tracked) : Prop where
  exact : Exact t.state t.registry
  allCalled : t.AllCalled
  maxfd : ∀ e ∈ t.registry, e.fd ≤ t.state.maxfd
  known : t.state.maxfd ≤ 0 ∨ ∃ e ∈ t.registry, e.fd = t.state.maxfd
  block : t.state.nfds = 0 ∧ t.state.fdArray = [] ∧ t.state.scan = none ∨
    t.state.nfds = 1 ∧ t.state.fdArray.length = 1
  scanning : ∀ sc ∈ t.state.scan, Scanning t sc

theorem good_initial : Good .initial where
  exact := ⟨⟨[],rfl,rfl,rfl⟩,fun k a => by simp [Tracked.initial,ListenerState.initial]⟩
  allCalled := fun _ _ ready hready => by cases hready
  maxfd := fun e he => absurd he List.not_mem_nil
  known := Or.inl (le_refl _)
  block := Or.inl ⟨rfl,rfl,rfl⟩
  scanning := fun sc hsc => by cases hsc

/-- The table holds the registry, which has one entry at most. -/
theorem Good.entries {t : Tracked} (h : Good t) : ∃ entries : List FD, entries.length ≤ 1 ∧
    t.state.fdArraySize = entries.length ∧ Filled t.state.fdArray entries ∧ t.registry = entries.map FD.entry := by
  obtain ⟨entries,hsize,hfilled,hregistry⟩ := h.exact.entries
  have hlen := hfilled.length_le
  refine ⟨entries,?_,hsize,hfilled,hregistry⟩
  rcases h.block with ⟨-,hnil,-⟩ | ⟨-,hone⟩
  · rw [hnil,List.length_nil] at hlen
    omega
  · omega

theorem Good.registry_eq_nil {t : Tracked} (h : Good t) (hnil : t.state.fdArray = []) : t.registry = [] := by
  obtain ⟨entries,-,-,hfilled,hregistry⟩ := h.entries
  have hle := hfilled.length_le
  rw [hnil,List.length_nil,Nat.le_zero,List.length_eq_zero_iff] at hle
  rw [hregistry,hle,List.map_nil]

theorem Good.eq_of_mem {t : Tracked} (h : Good t) {e e' : Entry} (he : e ∈ t.registry) (he' : e' ∈ t.registry) :
    e = e' := by
  obtain ⟨entries,hlen,-,-,hregistry⟩ := h.entries
  have hone : t.registry.length ≤ 1 := by rwa [hregistry,List.length_map]
  obtain ⟨x,hx⟩ := List.length_eq_one_iff.mp (Nat.le_antisymm hone (List.length_pos_of_mem he))
  rw [hx,List.mem_singleton] at he he'
  rw [he,he']

theorem readyOf_iff {sets ready : FdSets} {maxfd : ℤ} {k : Fin 3} {a : Fin fdSetSize} :
    readyOf sets maxfd ready k a = true ↔ (sets k a = true ∧ ready k a = true) ∧ (a : ℤ) ≤ maxfd := by
  simp [readyOf]

/-- What has come for an entry is in the sets that `select` leaves. -/
theorem Good.readyIn {t : Tracked} (h : Good t) {e : Entry} (he : e ∈ t.registry) {ready : FdSets}
    (hready : e.ReadyIn ready) :
    ∃ k a, slot e.fd = some a ∧ mentions e.events k ∧ readyOf t.state.fdsets t.state.maxfd ready k a = true := by
  obtain ⟨k,a,hslot,hbit,hk⟩ := hready
  have hwatched := (h.exact.watched k a).mpr ⟨e,he,hslot,hk⟩
  have hmax : (a : ℤ) ≤ t.state.maxfd := by rw [slot_val hslot]; exact h.maxfd e he
  exact ⟨k,a,hslot,hk,readyOf_iff.mpr ⟨⟨hwatched,hbit⟩,hmax⟩⟩

/-! ## Steps -/

/-- The result of a removal, from the program or from a callback. -/
theorem good_remove {t : Tracked} (h : Good t) {fd : ℤ} {when : BitVec 32} (hrange : InRange fd when)
    (hfits : ∀ e ∈ t.registry, e.fd = fd → Fits (e.events &&& ~~~ when)) :
    ∃ s', listenerRemoveFd t.state fd when = some s' ∧
      Good { t with state := s', registry := unregister t.registry fd when, changed := true } := by
  obtain ⟨s',heq,hexact,hnfds,hscan,hlen,hmax,hknown⟩ := exact_remove h.exact hrange hfits
  refine ⟨s',heq,hexact,fun _ hchanged => Bool.noConfusion hchanged,hmax,hknown,?_,fun sc hsc => ?_⟩
  · rcases h.block with ⟨hzero,hnil,hnone⟩ | ⟨hone,hlength⟩
    · refine Or.inl ⟨hnfds.trans hzero,List.length_eq_zero_iff.mp ?_,hscan.trans hnone⟩
      rw [hlen,hnil,List.length_nil]
    · exact Or.inr ⟨hnfds.trans hone,hlen.trans hlength⟩
  · have hscanning := h.scanning sc (hscan ▸ hsc)
    obtain ⟨ready,hready,hsub,-⟩ := hscanning.ready
    refine ⟨⟨ready,hready,hsub,fun hchanged => Bool.noConfusion hchanged⟩,fun e he => ?_,hscanning.fresh,
      hscanning.first,fun hchanged => Bool.noConfusion hchanged⟩
    obtain ⟨e₀,he₀,heq₀⟩ := mem_unregister.mp he
    have hfd : e.fd = e₀.fd := by
      unfold Entry.without at heq₀
      split_ifs at heq₀
      all_goals rw [← Option.some.inj heq₀]
    rw [hfd]
    exact hscanning.inRange e₀ he₀

/-- The first insertion makes a block of one cell. -/
theorem good_add {t : Tracked} (h : Good t) (hnfds : t.state.nfds = 0) {fd : ℤ} {when : BitVec 32} (cb arg : ℕ)
    (hrange : InRange fd when) (hfits : Fits when) :
    ∃ s', listenerAddFd t.state fd when cb arg = some s' ∧
      Good { t with state := s', registry := register t.registry fd when cb arg, changed := true } := by
  obtain ⟨hnil,hscan⟩ : t.state.fdArray = [] ∧ t.state.scan = none := by
    rcases h.block with ⟨-,hblock⟩ | ⟨hone,-⟩
    · exact hblock
    · omega
  have hempty : t.registry = [] := h.registry_eq_nil hnil
  obtain ⟨s₁,heq,hexact,hnfds₁,hscan₁,hlen₁,-,hknown⟩ := exact_remove h.exact hrange
    (fun e he => absurd (hempty ▸ he) List.not_mem_nil)
  rw [hempty] at hexact hknown
  have harray : s₁.fdArray = [] := List.length_eq_zero_iff.mp (by rw [hlen₁,hnil,List.length_nil])
  have hsize : s₁.fdArraySize = 0 := by
    obtain ⟨entries,hsize,hfilled,-⟩ := hexact.entries
    have hle := hfilled.length_le
    rw [harray,List.length_nil] at hle
    omega
  have hunwatched : ∀ k a, s₁.fdsets k a = false := fun k a => by
    rw [← Bool.not_eq_true,hexact.watched]
    rintro ⟨e,he,-⟩
    exact List.not_mem_nil he
  obtain ⟨sets,hsets,hsets_eq⟩ := changeSets_spec hrange true s₁.fdsets
  have hadd : listenerAddFd t.state fd when cb arg = some { s₁ with
      nfds := 1, fdArraySize := 1, fdArray := [some ⟨fd,when.setWidth 16,cb,arg⟩], fdsets := sets,
      maxfd := max s₁.maxfd fd } := by
    simp [listenerAddFd,heq,hnfds₁,hnfds,hsize,harray,resize,hsets]
  refine ⟨_,hadd,⟨⟨⟨[⟨fd,when.setWidth 16,cb,arg⟩],rfl,rfl,?_⟩,fun k a => ?_⟩,
    fun _ hchanged => Bool.noConfusion hchanged,?_,?_,Or.inr ⟨rfl,rfl⟩,fun sc hsc => ?_⟩⟩
  · rw [hempty]
    exact congrArg (fun m => [Entry.mk fd m cb arg]) hfits.symm
  · rw [hempty]
    dsimp only
    rw [hsets_eq,hunwatched]
    simp [register,unregister]
  · intro e he
    rw [hempty] at he
    rw [List.mem_singleton.mp he]
    exact le_max_right _ _
  · rw [hempty]
    rcases hknown with hle | ⟨e,he,-⟩
    · rcases max_choice s₁.maxfd fd with hmax | hmax
      · exact Or.inl (hmax.trans_le hle)
      · exact Or.inr ⟨_,List.mem_append_right _ (List.mem_singleton_self _),hmax.symm⟩
    · exact absurd he List.not_mem_nil
  · rw [show s₁.scan = none from hscan₁.trans hscan] at hsc
    cases hsc

/-- From the second insertion on, the place of the entry is outside of the block, or the block
gets a cell too many. -/
theorem second_add {t : Tracked} (h : Good t) (hnfds : t.state.nfds ≠ 0) {fd : ℤ} {when : BitVec 32} {cb arg : ℕ}
    {s' : ListenerState} (hadd : listenerAddFd t.state fd when cb arg = some s') :
    s'.fdArraySize = 3 ∧ s'.fdArray[2]? = some none := by
  obtain ⟨hone,hlength⟩ : t.state.nfds = 1 ∧ t.state.fdArray.length = 1 := by
    rcases h.block with ⟨hzero,-⟩ | hblock
    · exact absurd hzero hnfds
    · exact hblock
  obtain ⟨entries,hentries,hsize,hfilled,-⟩ := h.entries
  obtain ⟨cells,hcells,hleft,heq⟩ := listenerRemoveFd_spec fd when hsize hfilled
  obtain ⟨c,rfl⟩ := List.length_eq_one_iff.mp (hcells.trans hlength)
  have hle := hleft.length_le
  unfold listenerAddFd at hadd
  rw [heq] at hadd
  cases hsets : changeSets false t.state.fdsets fd when with
  | none => simp [hsets] at hadd
  | some sets =>
    rcases Nat.le_one_iff_eq_zero_or_eq_one.mp hle with hzero | hkept
    · simp [hsets,hone,hzero,resize] at hadd
    · simp only [hsets,hone,hkept,resize,Option.map_some,Option.bind_eq_bind,Option.bind_some] at hadd
      obtain ⟨sets',-,heq'⟩ := Option.bind_eq_some_iff.mp hadd
      obtain rfl := Option.some.inj heq'
      exact ⟨rfl,rfl⟩

theorem not_exact_of_second_add {s : ListenerState} {registry : List Entry} (hsize : s.fdArraySize = 3)
    (hcell : s.fdArray[2]? = some none) : ¬ Exact s registry := by
  intro h
  obtain ⟨entries,hlen,hfilled,-⟩ := h.entries
  have hget : (s.fdArray.take entries.length)[2]? = (entries.map some)[2]? := congrArg (fun l => l[2]?) hfilled
  rw [List.getElem?_take_of_lt (by omega),hcell,List.getElem?_map,Option.some_eq_map_iff] at hget
  obtain ⟨e,-,he⟩ := hget
  cases he

theorem Good.rescan {t : Tracked} (h : Good t) (hscan : t.state.scan ≠ none) {next : Option Scan} {called : List Entry}
    (hall : Tracked.AllCalled { t with state := { t.state with scan := next }, called := called })
    (hnext : ∀ sc ∈ next, Scanning { t with state := { t.state with scan := next }, called := called } sc) :
    Good { t with state := { t.state with scan := next }, called := called } where
  exact := ⟨h.exact.entries,h.exact.watched⟩
  allCalled := hall
  maxfd := h.maxfd
  known := h.known
  block := by
    rcases h.block with ⟨-,-,hnone⟩ | hblock
    · exact absurd hnone hscan
    · exact Or.inr hblock
  scanning := hnext

/-- The one entry there is, which the wait comes to first. -/
theorem Good.entry {t : Tracked} (h : Good t) {sc : Scan} (hsc : t.state.scan = some sc)
    (hi : sc.i < t.state.fdArraySize) :
    ∃ e a, sc.i = 0 ∧ t.state.fdArray[sc.i]? = some (some e) ∧ slot e.fd = some a ∧ t.registry = [e.entry] := by
  obtain ⟨entries,hlen,hsize,hfilled,hregistry⟩ := h.entries
  have hzero : sc.i = 0 := by omega
  obtain ⟨e,rfl⟩ := List.length_eq_one_iff.mp (show entries.length = 1 by omega)
  have hcell : t.state.fdArray[sc.i]? = some (some e) := by
    have hget := congrArg (fun l => l[0]?) hfilled
    rw [hzero]
    simpa using hget
  have hmem : e.entry ∈ t.registry := by rw [hregistry]; exact List.mem_singleton_self _
  obtain ⟨a,hslot⟩ := Option.isSome_iff_exists.mp ((h.scanning sc hsc).inRange e.entry hmem)
  exact ⟨e,a,hzero,hcell,hslot,hregistry⟩

theorem good_call {t : Tracked} (h : Good t) {sc : Scan} (hsc : t.state.scan = some sc) (hidle : sc.inCallback = false)
    (hzero : sc.i = 0) {e : FD} {a : Fin fdSetSize} (hslot : slot e.fd = some a) (hregistry : t.registry = [e.entry])
    (hk : ∃ k, sc.fdtmp k a ∧ mentions e.events k) :
    Good { t with
      state := { t.state with scan := some { sc with inCallback := true } }, called := [e.entry] ++ t.called } ∧
      e.entry ∉ t.called ∧ ∃ ready ∈ t.ready, e.entry.ReadyIn ready := by
  have hscanning := h.scanning sc hsc
  obtain ⟨ready,hready,hsub,hselect⟩ := hscanning.ready
  have hnot : t.called = [] := hscanning.fresh hzero hidle
  refine ⟨h.rescan (fun hnone => by rw [hsc] at hnone; cases hnone)
    (fun hnone => absurd hnone (Option.some_ne_none _)) (fun sc' hsc' => ?_),hnot ▸ List.not_mem_nil,ready,hready,?_⟩
  · obtain rfl := Option.some.inj hsc'
    refine ⟨⟨ready,hready,hsub,hselect⟩,hscanning.inRange,fun _ hfree => Bool.noConfusion hfree,fun _ => hzero,?_⟩
    intro _ _ _ _ e' he' _
    dsimp only at he'
    rw [hregistry] at he'
    exact List.mem_append_left _ he'
  · obtain ⟨k,hbit,hk⟩ := hk
    exact ⟨k,a,hslot,hsub k a hbit,(mentions_signExtend e.events k).trans hk⟩

theorem good_pass {t : Tracked} (h : Good t) {sc : Scan} (hsc : t.state.scan = some sc) (hidle : sc.inCallback = false)
    {e : FD} {a : Fin fdSetSize} (hslot : slot e.fd = some a) (hregistry : t.registry = [e.entry])
    (hk : ¬ ∃ k, sc.fdtmp k a ∧ mentions e.events k) :
    Good { t with state := { t.state with scan := some { sc with i := sc.i + 1 } }, called := t.called } := by
  have hscanning := h.scanning sc hsc
  obtain ⟨ready,hready,hsub,hselect⟩ := hscanning.ready
  refine h.rescan (fun hnone => by rw [hsc] at hnone; cases hnone) (fun hnone => absurd hnone (Option.some_ne_none _))
    (fun sc' hsc' => ?_)
  obtain rfl := Option.some.inj hsc'
  refine ⟨⟨ready,hready,hsub,hselect⟩,hscanning.inRange,fun hnext => absurd hnext (Nat.succ_ne_zero _),
    fun hin => Bool.noConfusion (hidle.symm.trans hin),?_⟩
  intro hchanged _ ready' hready' e' he' hin
  dsimp only at he' hready' hchanged
  rw [hregistry,List.mem_singleton] at he'
  rw [he'] at hin
  rw [Option.mem_def.mp hready'] at hready
  obtain ⟨k,a',hslot',hmentions,hbit⟩ :=
    h.readyIn (hregistry ▸ List.mem_singleton_self _) (Option.some.inj hready ▸ hin)
  rw [← hselect hchanged] at hbit
  obtain rfl : a = a' := Option.some.inj (hslot.symm.trans hslot')
  exact absurd ⟨k,hbit,(mentions_signExtend e.events k).symm.trans hmentions⟩ hk

theorem good_end {t : Tracked} (h : Good t) {sc : Scan} (hsc : t.state.scan = some sc)
    (hi : ¬ sc.i < t.state.fdArraySize) :
    Good { t with state := { t.state with scan := none }, called := t.called } := by
  obtain ⟨entries,-,hsize,-,hregistry⟩ := h.entries
  refine h.rescan (fun hnone => by rw [hsc] at hnone; cases hnone) (fun _ hchanged ready hready e he hin => ?_)
    (fun sc' hsc' => by cases hsc')
  have hpos : 0 < sc.i := by
    have hone : 0 < t.registry.length := List.length_pos_of_mem he
    rw [hregistry,List.length_map] at hone
    omega
  exact (h.scanning sc hsc).passed hchanged (Or.inl hpos) ready hready e he hin

/-- A round of the loop, at the entry there is or at the end. -/
theorem good_scan {t : Tracked} (h : Good t) (ha : scan.Applies t = true) :
    ∃ t', scan.step t = some t' ∧ Good t' ∧
      ∀ e, t'.called = e :: t.called → e ∈ t.registry ∧ e ∉ t.called ∧ ∃ ready ∈ t.ready, e.ReadyIn ready := by
  obtain ⟨sc,hsc,hidle⟩ := (Option.any_eq_true _ _).mp ha
  rw [Bool.not_eq_true'] at hidle
  by_cases hi : sc.i < t.state.fdArraySize
  · obtain ⟨e,a,hzero,hcell,hslot,hregistry⟩ := h.entry hsc hi
    have hcalls : calls sc.fdtmp e = some (decide (∃ k, sc.fdtmp k a ∧ mentions e.events k)) := by
      rw [calls,hslot,Option.map_some]
    by_cases hk : ∃ k, sc.fdtmp k a ∧ mentions e.events k
    · obtain ⟨hgood,hnot,hready⟩ := good_call h hsc hidle hzero hslot hregistry hk
      refine ⟨_,?_,hgood,fun e' he' => ?_⟩
      · simp [step,ha,effect,hsc,scanEntry,hi,hcell,hcalls,hk]
      · obtain rfl : e.entry = e' := (List.cons.inj he').1
        exact ⟨hregistry ▸ List.mem_singleton_self _,hnot,hready⟩
    · refine ⟨_,?_,good_pass h hsc hidle hslot hregistry hk,
        fun e' he' => absurd he' (List.cons_ne_self e' t.called).symm⟩
      simp [step,ha,effect,hsc,scanEntry,hi,hcell,hcalls,hk]
  · refine ⟨_,?_,good_end h hsc hi,fun e' he' => absurd he' (List.cons_ne_self e' t.called).symm⟩
    simp [step,ha,effect,hsc,scanEntry,hi]

/-- The sets have place for what a wait looks at if they have it for each descriptor. -/
theorem Good.select_eq {t : Tracked} (h : Good t) (ready : Option FdSets) :
    select (t.state.maxfd + 1) t.state.fdsets ready =
      if ∀ e ∈ t.registry, e.fd < fdSetSize then some (ready.map (readyOf t.state.fdsets t.state.maxfd)) else none := by
  have hplace : t.state.maxfd + 1 ≤ (fdSetSize : ℤ) ↔ ∀ e ∈ t.registry, e.fd < (fdSetSize : ℤ) := by
    constructor
    · intro hle e he
      have hmax := h.maxfd e he
      omega
    · intro hall
      rcases h.known with hle | ⟨e,he,hmax⟩
      · have hsize : (fdSetSize : ℤ) = 1024 := rfl
        omega
      · have hlt := hall e he
        omega
  rw [select,add_sub_cancel_right]
  exact if_congr hplace rfl rfl

theorem good_wait {t : Tracked} (h : Good t) (hscan : t.state.scan = none)
    (hplace : ∀ e ∈ t.registry, e.fd < fdSetSize) (ready : Option FdSets) :
    ∃ s', startWait t.state ready = some s' ∧
      Good { t with state := s', ready, called := [], changed := false } := by
  have hselect : select (t.state.maxfd + 1) t.state.fdsets ready =
      some (ready.map (readyOf t.state.fdsets t.state.maxfd)) := by
    rw [h.select_eq,if_pos hplace]
  by_cases hfound : ∃ r, ready = some r ∧ ∃ k a, readyOf t.state.fdsets t.state.maxfd r k a = true
  · obtain ⟨r,rfl,hfound⟩ := hfound
    have hstart : startWait t.state (some r) =
        some { t.state with scan := some ⟨readyOf t.state.fdsets t.state.maxfd r,0,false⟩ } := by
      rw [startWait,hselect]
      exact congrArg some (if_pos hfound)
    refine ⟨_,hstart,?_⟩
    obtain ⟨k,a,hbit⟩ := hfound
    obtain ⟨e,he,hslot,-⟩ := (h.exact.watched k a).mp (readyOf_iff.mp hbit).1.1
    refine ⟨⟨h.exact.entries,h.exact.watched⟩,fun hnone => absurd hnone (Option.some_ne_none _),h.maxfd,h.known,?_,
      fun sc hsc => ?_⟩
    · rcases h.block with ⟨-,hnil,-⟩ | hblock
      · rw [h.registry_eq_nil hnil] at he
        cases he
      · exact Or.inr hblock
    · obtain rfl := Option.some.inj hsc
      refine ⟨⟨r,rfl,fun k a hka => (readyOf_iff.mp hka).1.2,fun _ => rfl⟩,fun e' he' => ?_,fun _ _ => rfl,
        fun hin => Bool.noConfusion hin,?_⟩
      · rw [h.eq_of_mem he' he,hslot]
        rfl
      · rintro - (hpos | hin)
        · exact absurd hpos (Nat.lt_irrefl 0)
        · cases hin
  · have hstart : startWait t.state ready = some t.state := by
      rw [startWait,hselect]
      cases ready with
      | none => rfl
      | some r => exact congrArg some (if_neg (fun hka => hfound ⟨r,rfl,hka⟩))
    refine ⟨_,hstart,h.exact,fun _ _ r hr e he hin => ?_,h.maxfd,h.known,h.block,
      fun sc hsc => by rw [hscan] at hsc; cases hsc⟩
    obtain ⟨k,a,-,-,hbit⟩ := h.readyIn he hin
    exact absurd ⟨r,hr,k,a,hbit⟩ hfound

theorem good_callbackReturns {t : Tracked} (h : Good t) {sc : Scan} (hsc : t.state.scan = some sc)
    (hin : sc.inCallback = true) :
    Good { t with state := { t.state with scan := some { sc with i := sc.i + 1, inCallback := false } } } := by
  have hscanning := h.scanning sc hsc
  refine h.rescan (fun hnone => by rw [hsc] at hnone; cases hnone) (fun hnone => absurd hnone (Option.some_ne_none _))
    (fun sc' hsc' => ?_)
  obtain rfl := Option.some.inj hsc'
  exact ⟨hscanning.ready,hscanning.inRange,fun hzero => absurd hzero (Nat.succ_ne_zero _),
    fun hfalse => Bool.noConfusion hfalse,fun hchanged _ => hscanning.passed hchanged (Or.inr hin)⟩

/-! ## Runs -/

theorem Good.lawful {t t' : Tracked} {a : ListenerAction} (h : Good t') (hstep : a.step t = some t')
    (hcalled : ∀ e, t'.called = e :: t.called → e ∈ t.registry ∧ e ∉ t.called ∧ ∃ ready ∈ t.ready, e.ReadyIn ready) :
    a.Lawful t := fun _ => ⟨t',hstep,h.exact,h.allCalled,hcalled⟩

/-- A step that meets the condition is lawful and keeps the invariant. -/
theorem good_step {t : Tracked} (h : Good t) {a : ListenerAction} (hmeets : a.Meets t) (ha : a.Applies t = true) :
    ∃ t', a.step t = some t' ∧ Good t' ∧
      ∀ e, t'.called = e :: t.called → e ∈ t.registry ∧ e ∉ t.called ∧ ∃ ready ∈ t.ready, e.ReadyIn ready := by
  have hsame : ∀ e, t.called ≠ e :: t.called := fun e => (List.cons_ne_self e t.called).symm
  cases a with
  | add fd when cb arg =>
    obtain ⟨hnfds,hrange,hfits⟩ := hmeets ha
    obtain ⟨s',heq,hgood⟩ := good_add h hnfds cb arg hrange hfits
    exact ⟨_,by rw [step,if_pos ha,effect,heq]; rfl,hgood,fun e he => absurd he (hsame e)⟩
  | remove fd when =>
    obtain ⟨hrange,hfits⟩ := hmeets ha
    obtain ⟨s',heq,hgood⟩ := good_remove h hrange hfits
    exact ⟨_,by rw [step,if_pos ha,effect,heq]; rfl,hgood,fun e he => absurd he (hsame e)⟩
  | wait ready =>
    have hscan : t.state.scan = none := Option.isNone_iff_eq_none.mp ha
    obtain ⟨s',heq,hgood⟩ := good_wait h hscan (hmeets ha) ready
    exact ⟨_,by rw [step,if_pos ha,effect,heq]; rfl,hgood,fun e he => absurd he.symm (List.cons_ne_nil _ _)⟩
  | scan => exact good_scan h ha
  | callbackReturns =>
    obtain ⟨sc,hsc,hin⟩ := (Option.any_eq_true _ _).mp ha
    exact ⟨_,by rw [step,if_pos ha,effect,hsc]; rfl,good_callbackReturns h hsc hin,fun e he => absurd he (hsame e)⟩

theorem lawful_iff {t : Tracked} (h : Good t) (a : ListenerAction) : a.Lawful t ↔ a.Meets t := by
  constructor
  · intro hlawful ha
    obtain ⟨t',hstep,hexact,-⟩ := hlawful ha
    rw [step,if_pos ha] at hstep
    cases a with
    | add fd when cb arg =>
      obtain ⟨s',hs',rfl⟩ := Option.map_eq_some_iff.mp hstep
      have hnfds : t.state.nfds = 0 := by
        by_contra hne
        obtain ⟨hsize,hcell⟩ := second_add h hne hs'
        exact not_exact_of_second_add hsize hcell hexact
      have hrange : InRange fd when := by
        by_contra hrange
        rw [listenerAddFd,remove_none h.exact hrange] at hs'
        cases hs'
      exact ⟨hnfds,hrange,hexact.fits ⟨fd,when,cb,arg⟩ (List.mem_append_right _ (List.mem_singleton_self _))⟩
    | remove fd when =>
      obtain ⟨s',hs',rfl⟩ := Option.map_eq_some_iff.mp hstep
      have hrange : InRange fd when := by
        by_contra hrange
        rw [remove_none h.exact hrange] at hs'
        cases hs'
      refine ⟨hrange,fun e he hfd => ?_⟩
      by_cases hleft : e.events &&& ~~~ when = 0
      · rw [hleft]
        exact fits_zero
      · have hkept : e.without fd when = some { e with events := e.events &&& ~~~ when } := by
          rw [Entry.without,if_pos hfd,if_neg hleft]
        have hmem : { e with events := e.events &&& ~~~ when } ∈ unregister t.registry fd when :=
          mem_unregister.mpr ⟨e,he,hkept⟩
        have hfits := hexact.fits _ hmem
        exact hfits
    | wait ready =>
      obtain ⟨s',hs',rfl⟩ := Option.map_eq_some_iff.mp hstep
      change ∀ e ∈ t.registry, e.fd < fdSetSize
      by_contra hplace
      rw [startWait,h.select_eq,if_neg hplace] at hs'
      cases hs'
    | scan => exact True.intro
    | callbackReturns => exact True.intro
  · intro hmeets ha
    obtain ⟨t',hstep,hgood,hcalled⟩ := good_step h hmeets ha
    exact hgood.lawful hstep hcalled ha

/-- The registry is exact in a run if and only if there is at most one insertion, the descriptors
have a place in the sets, also those without an event that a wait comes to, and the masks fit. -/
theorem registry_exact_iff (acts : List ListenerAction) :
    Transition.Along step Lawful Tracked.initial acts ↔ Transition.Along step Meets Tracked.initial acts := by
  refine Transition.along_iff (I := Good) (fun t a h => lawful_iff h a) (fun t a t' h hlawful hstep => ?_) good_initial
  have ha : a.Applies t = true := by
    by_contra hnot
    rw [step,if_neg hnot] at hstep
    cases hstep
  obtain ⟨t₁,hstep₁,hgood,-⟩ := good_step h ((lawful_iff h a).mp hlawful) ha
  rw [hstep] at hstep₁
  exact Option.some.inj hstep₁ ▸ hgood

/-- A descriptor is added, taken away and added again: the second time it is written behind the block. -/
theorem registry_not_exact : ¬ Transition.Along step Lawful Tracked.initial [add 5 1 0 0,remove 5 1,add 5 1 0 0] := by
  intro h
  have hlawful := h [add 5 1 0 0,remove 5 1] (add 5 1 0 0) [] rfl _ rfl
  obtain ⟨t',hstep,-⟩ := hlawful rfl
  cases hstep

end Edelib.Listener
