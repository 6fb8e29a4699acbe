import Edelib.ForeignCallback.Registry
import Edelib.Foundation.Transition
import Edelib.Text.StrUtil

/-! # The list of callbacks

The list keeps the hash of an id. While it is gone through, it is held as what is before the iterator
and what is from it on; to go on from a node that was erased is a fault.
-/
namespace Edelib.ForeignCallback
open Foundation StrUtil

/-! ## The functions -/

structure ForeignCallbackInfo where
  hashId : BitVec 32
  cb : ℕ
  data : ℕ

/-- A node, with what the list does not keep: the id, and the how-many-th registration it is. -/
structure Node where
  info : ForeignCallbackInfo
  id : CString
  serial : ℕ

def foreignCallbackRemove (cb : ℕ) : List Node → List Node
  | [] => []
  | n :: ns => if n.info.cb = cb then foreignCallbackRemove cb ns else n :: foreignCallbackRemove cb ns

/-- A part of the list that ends before the iterator, the part behind it, and the number of the next node. -/
structure Parts where
  before : List Node
  behind : List Node
  next : ℕ

/-- `foreign_callback_add` removes the callback first, and puts the new node at the end. -/
def Parts.apply (l : Parts) : Op → Parts
  | .add id cb data =>
    ⟨foreignCallbackRemove cb l.before,foreignCallbackRemove cb l.behind ++ [⟨⟨strHash id 0,cb,data⟩,id,l.next⟩],l.next + 1⟩
  | .remove cb => ⟨foreignCallbackRemove cb l.before,foreignCallbackRemove cb l.behind,l.next⟩

/-- What `do_callback_by_id` was called with, besides the window also the windows that follow. -/
structure Loop where
  hash : BitVec 32
  id : CString
  win : Window
  windows : List Window
  served : List Registration

structure CallbackList where
  before : List Node
  it : List Node
  next : ℕ
  loop : Option Loop
  calls : List Invocation

def CallbackList.initial : CallbackList := ⟨[],[],0,none,[]⟩

/-- `xevent_handler` goes on to the next window, if there is one of the type. -/
def nextLoop (hash : BitVec 32) (id : CString) : List Window → Option Loop
  | [] => none
  | win :: windows => if win.type < FL_WINDOW then nextLoop hash id windows else some ⟨hash,id,win,windows,[]⟩

def Node.registration (n : Node) : Registration := ⟨n.serial,n.id,n.info.cb,n.info.data⟩

/-- One turn of the loop: the callback at the iterator is called if its hash is the one, and the iterator moves on. -/
def visit (s : CallbackList) (loop : Loop) (ops : List Op) : Option CallbackList :=
  match s.it with
  | [] => some { s with before := [], it := s.before, loop := nextLoop loop.hash loop.id loop.windows }
  | cur :: rest =>
    if loop.hash = cur.info.hashId ∧ cur.info.cb ≠ 0 then
      if ops.any (fun op => op.cb == cur.info.cb) then none
      else
        let l := ops.foldl Parts.apply ⟨s.before,rest,s.next⟩
        some ⟨l.before ++ [cur],l.behind,l.next,some { loop with served := loop.served ++ [cur.registration] },
          s.calls ++ [⟨loop.win,cur.info.cb,cur.info.data⟩]⟩
    else some { s with before := s.before ++ [cur], it := rest }

/-- What cannot happen at this point leaves the list as it is. -/
def step (s : CallbackList) : Action → Option CallbackList
  | .call op =>
    match s.loop with
    | none =>
      let l := Parts.apply ⟨[],s.it,s.next⟩ op
      some { s with it := l.behind, next := l.next }
    | some _ => some s
  | .deliver id windows =>
    match s.loop with
    | none => some { s with loop := nextLoop (strHash id 0) id windows }
    | some _ => some s
  | .visit ops =>
    match s.loop with
    | none => some s
    | some loop => visit s loop ops

/-! ## As the registry sees it -/

def Loop.round (l : Loop) : Round := ⟨l.id,l.win,l.windows,l.served⟩

def CallbackList.delivery (s : CallbackList) : Delivery :=
  ⟨⟨(s.before ++ s.it).map Node.registration,s.next⟩,s.loop.map Loop.round,s.calls⟩

/-- A step is without a fault, and one of the delivery to registered callbacks. -/
def Lawful (s : CallbackList) (a : Action) : Prop :=
  ∃ s', step s a = some s' ∧ Allowed s.delivery a s'.delivery

/-- A callback whose hash is the one was registered for the id, and neither removes nor registers itself. -/
def ActionWhen (s : CallbackList) : Action → Prop
  | .visit ops => ∀ loop cur, s.loop = some loop → s.it.head? = some cur → loop.hash = cur.info.hashId →
      cur.info.cb ≠ 0 → cur.id = loop.id ∧ ∀ op ∈ ops, op.cb ≠ cur.info.cb
  | .call _ => True
  | .deliver _ _ => True

/-! ## The parts of the list -/

theorem foreignCallbackRemove_eq (cb : ℕ) (l : List Node) :
    foreignCallbackRemove cb l = l.filter (fun n => n.info.cb ≠ cb) := by
  induction l with
  | nil => rfl
  | cons n ns ih =>
    rw [foreignCallbackRemove,ih]
    split_ifs with h
    · rw [List.filter_cons_of_neg (by simpa using h)]
    · rw [List.filter_cons_of_pos (by simpa using h)]

theorem map_foreignCallbackRemove (cb : ℕ) (l : List Node) : (foreignCallbackRemove cb l).map Node.registration =
    (l.map Node.registration).filter (fun r => r.cb ≠ cb) := by
  rw [foreignCallbackRemove_eq,List.filter_map]
  rfl

def Parts.registry (l : Parts) (mid : List Node) : Registry :=
  ⟨(l.before ++ (mid ++ l.behind)).map Node.registration,l.next⟩

theorem filter_registrations {cb : ℕ} {mid : List Node} (hmid : ∀ n ∈ mid, n.info.cb ≠ cb) :
    (mid.map Node.registration).filter (fun r => r.cb ≠ cb) = mid.map Node.registration := by
  refine List.filter_eq_self.mpr (fun r hr => ?_)
  obtain ⟨n,hn,rfl⟩ := List.mem_map.mp hr
  exact decide_eq_true (hmid n hn)

/-- The calls of the two functions do to the list what they do to the registry, unless nodes between are meant. -/
theorem Parts.registry_apply (l : Parts) {mid : List Node} {op : Op} (hmid : ∀ n ∈ mid, n.info.cb ≠ op.cb) :
    (l.apply op).registry mid = (l.registry mid).apply op := by
  cases op with
  | remove cb =>
    have hkept := @filter_registrations cb mid hmid
    simp only [Parts.apply,Parts.registry,Registry.apply,List.map_append,List.filter_append,map_foreignCallbackRemove,hkept]
  | add id cb data =>
    have hkept := @filter_registrations cb mid hmid
    simp only [Parts.apply,Parts.registry,Registry.apply,List.map_append,List.filter_append,map_foreignCallbackRemove,hkept,
      List.append_assoc]
    rfl

theorem Parts.registry_foldl (l : Parts) {mid : List Node} {ops : List Op}
    (hmid : ∀ op ∈ ops, ∀ n ∈ mid, n.info.cb ≠ op.cb) :
    (ops.foldl Parts.apply l).registry mid = ops.foldl Registry.apply (l.registry mid) := by
  induction ops generalizing l with
  | nil => rfl
  | cons op ops ih =>
    obtain ⟨hop,hops⟩ := List.forall_mem_cons.mp hmid
    rw [List.foldl_cons,List.foldl_cons,ih (l.apply op) hops,l.registry_apply hop]

def Node.Hashed (n : Node) : Prop := n.info.hashId = strHash n.id 0

structure Parts.Evolves (l l' : Parts) : Prop where
  before : l'.before.Sublist l.before
  behind : ∃ new, l'.behind.Sublist (l.behind ++ new) ∧ new.Pairwise (fun m n => m.serial < n.serial) ∧
    ∀ n ∈ new, l.next ≤ n.serial ∧ n.serial < l'.next ∧ n.Hashed
  next : l.next ≤ l'.next

theorem Parts.Evolves.refl (l : Parts) : l.Evolves l :=
  ⟨List.Sublist.refl _,⟨[],by rw [List.append_nil],List.Pairwise.nil,fun n hn => absurd hn List.not_mem_nil⟩,Nat.le_refl _⟩

theorem Parts.Evolves.trans {l l' l'' : Parts} (h : l.Evolves l') (h' : l'.Evolves l'') : l.Evolves l'' := by
  obtain ⟨new,hsub,horder,hnew⟩ := h.behind
  obtain ⟨new',hsub',horder',hnew'⟩ := h'.behind
  refine ⟨h'.before.trans h.before,⟨new ++ new',?_,?_,?_⟩,h.next.trans h'.next⟩
  · rw [← List.append_assoc]
    exact hsub'.trans (hsub.append (List.Sublist.refl _))
  · refine List.pairwise_append.mpr ⟨horder,horder',fun m hm n hn => ?_⟩
    exact (hnew m hm).2.1.trans_le (hnew' n hn).1
  · intro n hn
    rcases List.mem_append.mp hn with hn | hn
    · exact ⟨(hnew n hn).1,(hnew n hn).2.1.trans_le h'.next,(hnew n hn).2.2⟩
    · exact ⟨h.next.trans (hnew' n hn).1,(hnew' n hn).2⟩

theorem sublist_foreignCallbackRemove (cb : ℕ) (l : List Node) : (foreignCallbackRemove cb l).Sublist l := by
  rw [foreignCallbackRemove_eq]
  exact List.filter_sublist

theorem Parts.evolves_apply (l : Parts) (op : Op) : l.Evolves (l.apply op) := by
  cases op with
  | remove cb =>
    refine ⟨sublist_foreignCallbackRemove cb _,⟨[],?_,List.Pairwise.nil,fun n hn => absurd hn List.not_mem_nil⟩,Nat.le_refl _⟩
    rw [List.append_nil]
    exact sublist_foreignCallbackRemove cb _
  | add id cb data =>
    refine ⟨sublist_foreignCallbackRemove cb _,⟨[⟨⟨strHash id 0,cb,data⟩,id,l.next⟩],?_,List.pairwise_singleton _ _,?_⟩,
      Nat.le_succ _⟩
    · exact (sublist_foreignCallbackRemove cb _).append (List.Sublist.refl _)
    · intro n hn
      rw [List.mem_singleton.mp hn]
      exact ⟨Nat.le_refl _,Nat.lt_succ_self _,rfl⟩

theorem Parts.evolves_foldl (l : Parts) (ops : List Op) : l.Evolves (ops.foldl Parts.apply l) := by
  induction ops generalizing l with
  | nil => exact Evolves.refl l
  | cons op ops ih => exact (l.evolves_apply op).trans (ih (l.apply op))

/-! ## What holds of the list -/

/-- While a message is delivered: who is before the iterator and wanted was called, and nobody from it on. -/
structure InLoop (s : CallbackList) (loop : Loop) : Prop where
  hash_eq : loop.hash = strHash loop.id 0
  served : ∀ n ∈ s.before, n.registration.WantedBy loop.id → n.registration ∈ loop.served
  ahead : ∀ r ∈ loop.served, ∀ n ∈ s.it, r.serial < n.serial
  old : ∀ r ∈ loop.served, r.serial < s.next

/-- The nodes are in the order of their registration, with the hashes of their ids. -/
structure InOrder (nodes : List Node) (next : ℕ) : Prop where
  hashed : ∀ n ∈ nodes, n.Hashed
  order : nodes.Pairwise (fun m n => m.serial < n.serial)
  old : ∀ n ∈ nodes, n.serial < next

structure Consistent (s : CallbackList) : Prop extends InOrder (s.before ++ s.it) s.next where
  idle : s.loop = none → s.before = []
  inLoop : ∀ loop, s.loop = some loop → InLoop s loop

/-- Whatever is done to the parts, the nodes stay in order. -/
theorem Parts.Evolves.keeps {l l' : Parts} (h : l.Evolves l') {mid : List Node}
    (hnodes : InOrder (l.before ++ (mid ++ l.behind)) l.next) : InOrder (l'.before ++ (mid ++ l'.behind)) l'.next := by
  obtain ⟨new,hsub,hneworder,hnew⟩ := h.behind
  have hall : (l'.before ++ (mid ++ l'.behind)).Sublist ((l.before ++ (mid ++ l.behind)) ++ new) := by
    rw [List.append_assoc,List.append_assoc]
    exact h.before.append ((List.Sublist.refl mid).append hsub)
  refine ⟨fun n hn => ?_,?_,fun n hn => ?_⟩
  · rcases List.mem_append.mp (hall.subset hn) with hn | hn
    · exact hnodes.hashed n hn
    · exact (hnew n hn).2.2
  · refine List.Pairwise.sublist hall (List.pairwise_append.mpr ⟨hnodes.order,hneworder,fun m hm n hn => ?_⟩)
    exact (hnodes.old m hm).trans_le (hnew n hn).1
  · rcases List.mem_append.mp (hall.subset hn) with hn | hn
    · exact (hnodes.old n hn).trans_le h.next
    · exact (hnew n hn).2.1

theorem inOrder_nil (next : ℕ) : InOrder [] next :=
  ⟨fun _ hn => absurd hn List.not_mem_nil,List.Pairwise.nil,fun _ hn => absurd hn List.not_mem_nil⟩

theorem consistent_initial : Consistent .initial := by
  refine ⟨inOrder_nil 0,fun _ => rfl,?_⟩
  intro loop hloop
  cases hloop

theorem nextLoop_eq {hash : BitVec 32} {id : CString} {windows : List Window} :
    (nextLoop hash id windows).map Loop.round = nextRound id windows := by
  induction windows with
  | nil => rfl
  | cons win windows ih =>
    rw [nextLoop,nextRound]
    split_ifs
    · exact ih
    · rfl

theorem of_nextLoop {hash : BitVec 32} {id : CString} {windows : List Window} {loop : Loop}
    (h : nextLoop hash id windows = some loop) : loop.hash = hash ∧ loop.id = id ∧ loop.served = [] := by
  induction windows with
  | nil => cases h
  | cons win windows ih =>
    rw [nextLoop] at h
    split_ifs at h with htype
    · exact ih h
    · cases h
      exact ⟨rfl,rfl,rfl⟩

/-- At the beginning of the list nobody was called. -/
theorem inLoop_nextLoop {nodes : List Node} {next : ℕ} {calls : List Invocation} {id : CString} {windows : List Window}
    {loop : Loop} (h : nextLoop (strHash id 0) id windows = some loop) :
    InLoop ⟨[],nodes,next,nextLoop (strHash id 0) id windows,calls⟩ loop := by
  obtain ⟨hhash,hid,hserved⟩ := of_nextLoop h
  refine ⟨by rw [hhash,hid],fun n hn => absurd hn List.not_mem_nil,?_,?_⟩
  · rw [hserved]
    exact fun r hr => absurd hr List.not_mem_nil
  · rw [hserved]
    exact fun r hr => absurd hr List.not_mem_nil

/-! ## The turns of the loop -/

variable {s : CallbackList} {loop : Loop}

/-- At the end of the list all were called, so the next window comes. -/
theorem visit_nil (hs : Consistent s) (hloop : s.loop = some loop) (hit : s.it = []) (ops : List Op) :
    ∃ s', visit s loop ops = some s' ∧ Allowed s.delivery (.visit ops) s'.delivery ∧ Consistent s' := by
  have hin := hs.inLoop loop hloop
  have hnodes : s.before ++ s.it = s.before := by rw [hit,List.append_nil]
  refine ⟨{ s with before := [], it := s.before, loop := nextLoop loop.hash loop.id loop.windows },?_,?_,?_⟩
  · rw [visit,hit]
  · simp only [CallbackList.delivery,hloop,nextLoop_eq,Option.map_some,List.nil_append,hnodes]
    refine @Allowed.finish _ loop.round _ ops (fun r hr hwanted => ?_)
    obtain ⟨n,hn,rfl⟩ := List.mem_map.mp hr
    exact hin.served n hn hwanted
  · have horder := hs.toInOrder
    rw [hnodes] at horder
    refine ⟨horder,fun _ => rfl,fun loop' hloop' => ?_⟩
    dsimp only at hloop' ⊢
    rw [hin.hash_eq] at hloop' ⊢
    exact inLoop_nextLoop hloop'

/-- A node with another hash, or without a callback, is not wanted. -/
theorem visit_skip (hs : Consistent s) (hloop : s.loop = some loop) {cur : Node} {rest : List Node}
    (hit : s.it = cur :: rest) (hno : ¬ (loop.hash = cur.info.hashId ∧ cur.info.cb ≠ 0)) (ops : List Op) :
    ∃ s', visit s loop ops = some s' ∧ Allowed s.delivery (.visit ops) s'.delivery ∧ Consistent s' := by
  have hin := hs.inLoop loop hloop
  have hnodes : s.before ++ [cur] ++ rest = s.before ++ s.it := by rw [hit,List.append_assoc]; rfl
  have hcur : cur.Hashed := hs.hashed cur (by rw [hit]; exact List.mem_append_right _ List.mem_cons_self)
  refine ⟨{ s with before := s.before ++ [cur], it := rest },?_,?_,?_⟩
  · rw [visit,hit]
    exact if_neg hno
  · simp only [CallbackList.delivery,hnodes,hloop,Option.map_some]
    exact Allowed.nothing ops
  · refine ⟨?_,fun hnone => ?_,fun loop' hloop' => ?_⟩
    · dsimp only
      rw [hnodes]
      exact hs.toInOrder
    · cases hloop.symm.trans hnone
    · cases hloop.symm.trans hloop'
      refine ⟨hin.hash_eq,fun n hn hwanted => ?_,fun r hr n hn => ?_,hin.old⟩
      · rcases List.mem_append.mp hn with hn | hn
        · exact hin.served n hn hwanted
        · rw [List.mem_singleton.mp hn] at hwanted
          have hid : cur.id = loop.id := hwanted.1
          refine absurd ⟨?_,hwanted.2⟩ hno
          rw [hin.hash_eq,← hid]
          exact hcur.symm
      · exact hin.ahead r hr n (by rw [hit]; exact List.mem_cons_of_mem _ hn)

/-- The node of a callback that is called and stays. -/
theorem visit_invoke (hs : Consistent s) (hloop : s.loop = some loop) {cur : Node} {rest : List Node}
    (hit : s.it = cur :: rest) (hhash : loop.hash = cur.info.hashId) (hcb : cur.info.cb ≠ 0) (hid : cur.id = loop.id)
    {ops : List Op} (hops : ∀ op ∈ ops, op.cb ≠ cur.info.cb) :
    ∃ s', visit s loop ops = some s' ∧ Allowed s.delivery (.visit ops) s'.delivery ∧ Consistent s' := by
  have hin := hs.inLoop loop hloop
  have hkept : ops.any (fun op => op.cb == cur.info.cb) = false := by
    rw [List.any_eq_false]
    intro op hop
    simpa using hops op hop
  have hmid : ∀ op ∈ ops, ∀ n ∈ [cur], n.info.cb ≠ op.cb := by
    intro op hop n hn
    rw [List.mem_singleton.mp hn]
    exact (hops op hop).symm
  have hcur : cur ∈ s.before ++ s.it := by
    rw [hit]
    exact List.mem_append_right _ List.mem_cons_self
  have hevolves := Parts.evolves_foldl ⟨s.before,rest,s.next⟩ ops
  have hregistry := Parts.registry_foldl ⟨s.before,rest,s.next⟩ hmid
  have hnodes : s.before ++ ([cur] ++ rest) = s.before ++ s.it := by rw [hit]; rfl
  have hkeeps := @Parts.Evolves.keeps _ _ hevolves [cur] (by dsimp only; rw [hnodes]; exact hs.toInOrder)
  generalize hl : ops.foldl Parts.apply ⟨s.before,rest,s.next⟩ = l at hevolves hregistry hkeeps
  refine ⟨⟨l.before ++ [cur],l.behind,l.next,some { loop with served := loop.served ++ [cur.registration] },
    s.calls ++ [⟨loop.win,cur.info.cb,cur.info.data⟩]⟩,?_,?_,?_⟩
  · rw [visit,hit]
    dsimp only
    rw [if_pos ⟨hhash,hcb⟩,hkept,if_neg Bool.false_ne_true,hl]
  · have hbefore : s.delivery = ⟨Parts.registry ⟨s.before,rest,s.next⟩ [cur],some loop.round,s.calls⟩ := by
      rw [CallbackList.delivery,hloop,Parts.registry,hnodes]
      rfl
    have hafter : (l.before ++ [cur] ++ l.behind).map Node.registration = (l.registry [cur]).regs := by
      rw [List.append_assoc]
      rfl
    have hnext : l.next = (l.registry [cur]).next := rfl
    rw [hbefore,CallbackList.delivery]
    dsimp only
    rw [hafter,hnext,hregistry]
    refine @Allowed.invoke _ loop.round _ ops cur.registration ?_ ⟨hid,hcb⟩ (fun hserved => ?_)
    · refine List.mem_map.mpr ⟨cur,?_,rfl⟩
      rwa [hnodes]
    · exact Nat.lt_irrefl _ (hin.ahead _ hserved cur (by rw [hit]; exact List.mem_cons_self))
  · refine ⟨?_,fun hnone => (by cases hnone),fun loop' hloop' => ?_⟩
    · dsimp only
      rw [List.append_assoc]
      exact hkeeps
    · cases hloop'
      have horder := (List.pairwise_append.mp hkeeps.order).2.1
      have hahead : ∀ n ∈ l.behind, cur.serial < n.serial := (List.pairwise_cons.mp horder).1
      refine ⟨hin.hash_eq,fun n hn hwanted => ?_,fun r hr n hn => ?_,fun r hr => ?_⟩
      · rcases List.mem_append.mp hn with hn | hn
        · exact List.mem_append_left _ (hin.served n (hevolves.before.subset hn) hwanted)
        · rw [List.mem_singleton.mp hn]
          exact List.mem_append_right _ (List.mem_singleton.mpr rfl)
      · rcases List.mem_append.mp hr with hr | hr
        · have hcurlt := hin.ahead r hr cur (by rw [hit]; exact List.mem_cons_self)
          exact hcurlt.trans (hahead n hn)
        · rw [List.mem_singleton.mp hr]
          exact hahead n hn
      · rcases List.mem_append.mp hr with hr | hr
        · exact (hin.old r hr).trans_le hevolves.next
        · rw [List.mem_singleton.mp hr]
          exact (hs.old cur hcur).trans_le hevolves.next

/-! ## Every action -/

theorem lawful_of_when (hs : Consistent s) {a : Action} (h : ActionWhen s a) :
    ∃ s', step s a = some s' ∧ Allowed s.delivery a s'.delivery ∧ Consistent s' := by
  cases hloop : s.loop with
  | none =>
    have hbefore := hs.idle hloop
    cases a with
    | visit ops =>
      refine ⟨s,by rw [step,hloop],?_,hs⟩
      rw [CallbackList.delivery,hloop]
      exact Allowed.idle ops
    | deliver id windows =>
      refine ⟨{ s with loop := nextLoop (strHash id 0) id windows },by rw [step,hloop],?_,?_⟩
      · simp only [CallbackList.delivery,hloop,nextLoop_eq,Option.map_none]
        exact Allowed.deliver id windows
      · refine ⟨hs.toInOrder,fun _ => hbefore,fun loop' hloop' => ?_⟩
        have hin := @inLoop_nextLoop s.it s.next s.calls _ _ _ hloop'
        rw [← hbefore] at hin
        exact hin
    | call op =>
      have hevolves := Parts.evolves_apply ⟨[],s.it,s.next⟩ op
      have hregistry := @Parts.registry_apply ⟨[],s.it,s.next⟩ [] op (fun n hn => absurd hn List.not_mem_nil)
      have hnodes : s.before ++ s.it = s.it := by rw [hbefore,List.nil_append]
      have hkeeps := @Parts.Evolves.keeps _ _ hevolves [] (by simpa only [hnodes,List.nil_append] using hs.toInOrder)
      have hempty : (Parts.apply ⟨[],s.it,s.next⟩ op).before = [] := by cases op <;> rfl
      refine ⟨{ s with it := (Parts.apply ⟨[],s.it,s.next⟩ op).behind, next := (Parts.apply ⟨[],s.it,s.next⟩ op).next },
        by rw [step,hloop],?_,?_⟩
      · have hdelivery : s.delivery = ⟨Parts.registry ⟨[],s.it,s.next⟩ [],none,s.calls⟩ := by
          rw [CallbackList.delivery,hloop,hnodes]
          rfl
        have hafter : (s.before ++ (Parts.apply ⟨[],s.it,s.next⟩ op).behind).map Node.registration =
            ((Parts.apply ⟨[],s.it,s.next⟩ op).registry []).regs := by
          rw [hbefore,Parts.registry,hempty]
          rfl
        have hnext : (Parts.apply ⟨[],s.it,s.next⟩ op).next = ((Parts.apply ⟨[],s.it,s.next⟩ op).registry []).next := rfl
        rw [hdelivery,CallbackList.delivery]
        dsimp only
        rw [hafter,hnext,hregistry,hloop]
        exact Allowed.call op
      · rw [hempty] at hkeeps
        simp only [List.nil_append] at hkeeps
        refine ⟨?_,fun _ => hbefore,fun loop' hloop' => by cases hloop.symm.trans hloop'⟩
        dsimp only
        rw [hbefore]
        exact hkeeps
  | some loop =>
    cases a with
    | call op =>
      refine ⟨s,by rw [step,hloop],?_,hs⟩
      rw [CallbackList.delivery,hloop]
      exact Allowed.busy op
    | deliver id windows =>
      refine ⟨s,by rw [step,hloop],?_,hs⟩
      rw [CallbackList.delivery,hloop]
      exact Allowed.later id windows
    | visit ops =>
      rw [step,hloop]
      cases hit : s.it with
      | nil => exact visit_nil hs hloop hit ops
      | cons cur rest =>
        by_cases hmatch : loop.hash = cur.info.hashId ∧ cur.info.cb ≠ 0
        · obtain ⟨hid,hops⟩ := h loop cur hloop (by rw [hit]; rfl) hmatch.1 hmatch.2
          exact visit_invoke hs hloop hit hmatch.1 hmatch.2 hid hops
        · exact visit_skip hs hloop hit hmatch ops

/-- A callback that erases itself leaves no way on, and one that was registered for another id is not wanted. -/
theorem when_of_lawful {a : Action} (h : Lawful s a) : ActionWhen s a := by
  cases a with
  | call op => trivial
  | deliver id windows => trivial
  | visit ops =>
    intro loop cur hloop hcur hhash hcb
    obtain ⟨rest,hit⟩ := List.head?_eq_some_iff.mp hcur
    obtain ⟨s',hs',hallowed⟩ := h
    rw [step,hloop] at hs'
    dsimp only at hs'
    rw [visit,hit] at hs'
    dsimp only at hs'
    rw [if_pos ⟨hhash,hcb⟩] at hs'
    split_ifs at hs' with hself
    cases hs'
    constructor
    · rw [CallbackList.delivery,hloop] at hallowed
      have hwanted : cur.registration.WantedBy loop.round.id := hallowed.wanted rfl
      exact hwanted.1
    · intro op hop heq
      exact hself (List.any_eq_true.mpr ⟨op,hop,by simpa using heq⟩)

theorem lawful_iff (hs : Consistent s) (a : Action) : Lawful s a ↔ ActionWhen s a := by
  refine ⟨when_of_lawful,fun h => ?_⟩
  obtain ⟨s',hs',hallowed,-⟩ := lawful_of_when hs h
  exact ⟨s',hs',hallowed⟩

/-- The turns that a delivery takes where nothing is registered meanwhile: to the end of the list, and
once through the list for every window that is left. -/
def turnsLeft (s : CallbackList) : ℕ :=
  match s.loop with
  | none => 0
  | some loop => s.it.length + 1 + loop.windows.length * (s.before.length + s.it.length + 1)

theorem windows_nextLoop {hash : BitVec 32} {id : CString} {windows : List Window} {loop : Loop}
    (h : nextLoop hash id windows = some loop) : loop.windows.length < windows.length := by
  induction windows with
  | nil => cases h
  | cons win windows ih =>
    rw [nextLoop] at h
    split_ifs at h with htype
    · exact (ih h).trans (Nat.lt_succ_self _)
    · cases h
      exact Nat.lt_succ_self _

theorem foldl_remove_length (l : Parts) {ops : List Op} (hops : ∀ op ∈ ops, ∃ cb, op = .remove cb) :
    (ops.foldl Parts.apply l).before.length ≤ l.before.length ∧
      (ops.foldl Parts.apply l).behind.length ≤ l.behind.length := by
  induction ops generalizing l with
  | nil => exact ⟨le_rfl,le_rfl⟩
  | cons op ops ih =>
    obtain ⟨⟨cb,rfl⟩,hrest⟩ := List.forall_mem_cons.mp hops
    obtain ⟨hbefore,hbehind⟩ := ih (l.apply (.remove cb)) hrest
    have hfilter : ∀ nodes : List Node, (foreignCallbackRemove cb nodes).length ≤ nodes.length := by
      intro nodes
      rw [foreignCallbackRemove_eq]
      exact List.length_filter_le _ _
    exact ⟨hbefore.trans (hfilter l.before),hbehind.trans (hfilter l.behind)⟩

/-- A turn in which nothing is registered brings the end nearer. -/
theorem turnsLeft_visit {s s' : CallbackList} {loop : Loop} (hloop : s.loop = some loop) {ops : List Op}
    (hops : ∀ op ∈ ops, ∃ cb, op = .remove cb) (h : visit s loop ops = some s') : turnsLeft s' < turnsLeft s := by
  rw [visit] at h
  cases hit : s.it with
  | nil =>
    rw [hit] at h
    cases h
    simp only [turnsLeft,hloop,hit,List.length_nil]
    cases hnext : nextLoop loop.hash loop.id loop.windows with
    | none => exact Nat.lt_of_lt_of_le Nat.one_pos (Nat.le_add_right _ _)
    | some loop' =>
      have hfewer := windows_nextLoop hnext
      have hround := Nat.mul_le_mul_right (s.before.length + 1) hfewer
      rw [Nat.succ_mul] at hround
      dsimp only
      simp only [Nat.add_zero,Nat.zero_add]
      omega
  | cons cur rest =>
    rw [hit] at h
    dsimp only at h
    split_ifs at h
    · cases h
      obtain ⟨hbefore,hbehind⟩ := foldl_remove_length ⟨s.before,rest,s.next⟩ hops
      simp only [turnsLeft,hloop,hit,List.length_append,List.length_cons,List.length_nil]
      dsimp only at hbefore hbehind
      have hround := Nat.mul_le_mul_left loop.windows.length
        (Nat.add_le_add_right (Nat.add_le_add (Nat.add_le_add_right hbefore (0 + 1)) hbehind) 1)
      have hsum : s.before.length + (0 + 1) + rest.length + 1 = s.before.length + (rest.length + 1) + 1 := by omega
      rw [hsum] at hround
      omega
    · cases h
      simp only [turnsLeft,hloop,hit,List.length_append,List.length_cons,List.length_nil]
      have hsum : s.before.length + (0 + 1) + rest.length + 1 = s.before.length + (rest.length + 1) + 1 := by omega
      rw [hsum]
      omega

/-- A delivery ends if its callbacks register nothing: after that many turns there is none. -/
theorem delivery_ends {s s' : CallbackList} {turns : List (List Op)}
    (hops : ∀ ops ∈ turns, ∀ op ∈ ops, ∃ cb, op = .remove cb) (hlen : turnsLeft s ≤ turns.length)
    (h : Transition.exec step s (turns.map .visit) = some s') : s'.loop = none := by
  induction turns generalizing s with
  | nil =>
    obtain rfl : s = s' := Option.some.inj h
    cases hloop : s.loop with
    | none => rfl
    | some loop =>
      rw [turnsLeft,hloop] at hlen
      simp at hlen
  | cons ops turns ih =>
    obtain ⟨hturn,hturns⟩ := List.forall_mem_cons.mp hops
    rw [List.map_cons,Transition.exec,List.foldlM_cons] at h
    obtain ⟨s₁,hs₁,h⟩ := Option.bind_eq_some_iff.mp h
    refine ih hturns ?_ h
    cases hloop : s.loop with
    | none =>
      rw [step,hloop] at hs₁
      cases hs₁
      rw [turnsLeft,hloop]
      exact Nat.zero_le _
    | some loop =>
      rw [step,hloop] at hs₁
      have hless := turnsLeft_visit hloop hturn hs₁
      rw [List.length_cons] at hlen
      omega

end Edelib.ForeignCallback
