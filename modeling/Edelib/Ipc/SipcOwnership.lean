import Edelib.Foundation.Ledger
import Mathlib.Data.Option.Basic

/-! # What a server owns

The private structures, their paths and the descriptors are obtained and released one by
one; the listener watches descriptors. A number is given again once its descriptor is
closed. A path that is null and `free` of it are left out.
-/
namespace Edelib.Sipc
open Foundation

inductive SipcResource
  | descriptor (fd : ℤ)
  | object (id : ℕ)
  | path (id : ℕ)
deriving DecidableEq

/-- An accepted client, which has no path. -/
structure SipcClientPrivate where
  id : ℕ
  fd : ℤ
deriving DecidableEq

structure SipcServerPrivate where
  id : ℕ
  fd : ℤ
  path : ℕ
  acceptedConnections : List SipcClientPrivate

def SipcClientPrivate.delete (cp : SipcClientPrivate) : List (Effect SipcResource) :=
  (if cp.fd > -1 then [.release (.descriptor cp.fd)] else []) ++ [.release (.object cp.id)]

namespace SipcServerPrivate

def delete (priv : SipcServerPrivate) : List (Effect SipcResource) :=
  priv.acceptedConnections.flatMap (fun cp => [.unwatch (.descriptor cp.fd),.release (.descriptor cp.fd)]) ++
    (if priv.fd > -1 then [.release (.descriptor priv.fd)] else []) ++
    [.release (.path priv.path),.release (.object priv.id)]

def Owns (priv : SipcServerPrivate) : SipcResource → Prop
  | .descriptor fd => 0 ≤ fd ∧ (fd = priv.fd ∨ ∃ cp ∈ priv.acceptedConnections, cp.fd = fd)
  | .object id => id = priv.id ∨ ∃ cp ∈ priv.acceptedConnections, cp.id = id
  | .path id => id = priv.path

instance (priv : SipcServerPrivate) : DecidablePred priv.Owns
  | .descriptor fd => inferInstanceAs
    (Decidable (0 ≤ fd ∧ (fd = priv.fd ∨ ∃ cp ∈ priv.acceptedConnections, cp.fd = fd)))
  | .object id => inferInstanceAs (Decidable (id = priv.id ∨ ∃ cp ∈ priv.acceptedConnections, cp.id = id))
  | .path id => inferInstanceAs (Decidable (id = priv.path))

/-- `accept` fails, or gives a descriptor. -/
def acceptNewConnection (priv : SipcServerPrivate) (id : ℕ) (accepted : Option ℕ) :
    SipcServerPrivate × List (Effect SipcResource) :=
  let fd : ℤ := accepted.elim (-1) (fun n => n)
  ({ priv with acceptedConnections := priv.acceptedConnections ++ [⟨id,fd⟩] },
    .obtain (.object id) :: (accepted.map (fun n => Effect.obtain (SipcResource.descriptor n))).toList ++
      [.watch (.descriptor fd)])

def disconnect (priv : SipcServerPrivate) (fd : ℤ) : SipcServerPrivate × List (Effect SipcResource) :=
  match priv.acceptedConnections.find? (fun cp => cp.fd = fd) with
  | none => (priv,[])
  | some cp => ({ priv with acceptedConnections := priv.acceptedConnections.erase cp },
    [.unwatch (.descriptor fd),.release (.descriptor fd)] ++ cp.delete)

/-- Without an end of the connection a message was read, which obtains nothing. -/
def serverCb (priv : SipcServerPrivate) (fd : ℤ) (id : ℕ) (accepted : Option ℕ) (ended : Bool) :
    SipcServerPrivate × List (Effect SipcResource) :=
  if priv.fd = fd then priv.acceptNewConnection id accepted else if ended then priv.disconnect fd else (priv,[])

end SipcServerPrivate

structure SipcState where
  priv : Option SipcServerPrivate
  ledger : Ledger SipcResource
  next : ℕ

namespace SipcState

def initial : SipcState := ⟨none,.empty,0⟩

def deletePriv (t : SipcState) : List (Effect SipcResource) := t.priv.elim [] SipcServerPrivate.delete

/-- The name may not be made, or be taken; no socket may be given, or not be bound. -/
def requestName (t : SipcState) (named taken : Bool) (socket : Option ℕ) (bound : Bool) :
    Option SipcServerPrivate × List (Effect SipcResource) :=
  if named = false then (t.priv,t.deletePriv)
  else if taken = true then (t.priv,t.deletePriv ++ [.obtain (.path t.next),.release (.path t.next)])
  else
    let obtained := t.deletePriv ++ [.obtain (.path t.next),.obtain (.object t.next)] ++
      (socket.map (fun n => Effect.obtain (SipcResource.descriptor n))).toList
    match socket, bound with
    | some fd, true => (some ⟨t.next,fd,t.next,[]⟩,obtained ++ [.watch (.descriptor fd)])
    | _, _ => (some ⟨t.next,-1,t.next,[]⟩,obtained)

/-- What is held is what can be reached from the server. -/
def Exact (t : SipcState) : Prop := ∀ r, r ∈ t.ledger.held ↔ ∃ priv ∈ t.priv, priv.Owns r

end SipcState

inductive ServerAction
  | requestName (named taken : Bool) (socket : Option ℕ) (bound : Bool)
  | callback (fd : ℤ) (accepted : Option ℕ) (ended : Bool)
  | destroy

namespace ServerAction

/-- New descriptors are not in use, and the listener calls for what it watches. -/
def Applies (t : SipcState) : ServerAction → Prop
  | requestName _ _ socket _ => ∀ n ∈ socket, SipcResource.descriptor n ∈ t.ledger.held →
      ∃ priv ∈ t.priv, priv.Owns (.descriptor n)
  | callback fd accepted _ => 0 ≤ fd ∧ .descriptor fd ∈ t.ledger.watched ∧
      ∀ n ∈ accepted, SipcResource.descriptor n ∉ t.ledger.held
  | destroy => True

def run (t : SipcState) : ServerAction → Option SipcServerPrivate × List (Effect SipcResource)
  | requestName named taken socket bound => t.requestName named taken socket bound
  | callback fd accepted ended => match t.priv with
    | none => (none,[])
    | some priv => (some (priv.serverCb fd t.next accepted ended).1,(priv.serverCb fd t.next accepted ended).2)
  | destroy => (none,t.deletePriv)

instance (t : SipcState) : (a : ServerAction) → Decidable (a.Applies t)
  | requestName _ _ socket _ => inferInstanceAs (Decidable (∀ n ∈ socket, SipcResource.descriptor n ∈ t.ledger.held →
      ∃ priv ∈ t.priv, priv.Owns (.descriptor n)))
  | callback fd accepted _ => inferInstanceAs (Decidable (0 ≤ fd ∧ .descriptor fd ∈ t.ledger.watched ∧
      ∀ n ∈ accepted, SipcResource.descriptor n ∉ t.ledger.held))
  | destroy => isTrue True.intro

def step (t : SipcState) (a : ServerAction) : Option SipcState :=
  if a.Applies t then (t.ledger.exec (a.run t).2).map fun ledger => ⟨(a.run t).1,ledger,t.next + 1⟩ else none

theorem step_eq {t : SipcState} {a : ServerAction} (ha : a.Applies t) {priv : Option SipcServerPrivate}
    {effects : List (Effect SipcResource)} {ledger : Ledger SipcResource} (hrun : a.run t = (priv,effects))
    (hexec : t.ledger.exec effects = some ledger) : a.step t = some ⟨priv,ledger,t.next + 1⟩ := by
  rw [step,if_pos ha,hrun,hexec,Option.map_some]

/-- Nothing is released that is not held or is still watched, and nothing is lost. -/
def Lawful (t : SipcState) (a : ServerAction) : Prop := a.Applies t → ∃ t', a.step t = some t' ∧ t'.Exact

/-- No client ends its connection; a server that listens is not taken away, and none that exists
by a call that makes no other; every socket can be bound. -/
def Meets (t : SipcState) (a : ServerAction) : Prop :=
  a.Applies t → match a with
    | requestName named taken socket bound => (∀ priv ∈ t.priv, priv.fd < 0) ∧
        (named = false ∨ taken = true → t.priv = none) ∧
        (named = true → taken = false → bound = false → socket = none)
    | callback fd _ ended => ended = true → ∀ priv ∈ t.priv, priv.fd = fd
    | destroy => ∀ priv ∈ t.priv, priv.fd < 0

end ServerAction
open ServerAction

/-! ## The invariant -/

def SipcServerPrivate.Listens (priv : SipcServerPrivate) (fd : ℤ) : Prop :=
  fd = priv.fd ∧ 0 ≤ fd ∨ ∃ cp ∈ priv.acceptedConnections, cp.fd = fd

structure SipcState.Good (t : SipcState) : Prop where
  exact : t.Exact
  watched : ∀ r, r ∈ t.ledger.watched ↔ ∃ priv ∈ t.priv, ∃ fd, priv.Listens fd ∧ r = .descriptor fd
  closed : ∀ priv ∈ t.priv, priv.fd < 0 → priv.acceptedConnections = []
  distinct : ∀ priv ∈ t.priv, 0 ≤ priv.fd → ∀ cp ∈ priv.acceptedConnections, cp.fd ≠ priv.fd
  fresh : ∀ id, t.next ≤ id → .object id ∉ t.ledger.held ∧ .path id ∉ t.ledger.held

open SipcState

theorem good_none (n : ℕ) : Good ⟨none,.empty,n⟩ where
  exact := fun r => by simp [Ledger.empty]
  watched := fun r => by simp [Ledger.empty]
  closed := fun priv hpriv => by cases hpriv
  distinct := fun priv hpriv => by cases hpriv
  fresh := fun id _ => by simp [Ledger.empty]

/-- A server that does not listen owns its structure and path alone. -/
theorem owns_closed {priv : SipcServerPrivate} (hfd : priv.fd < 0) (hempty : priv.acceptedConnections = [])
    (r : SipcResource) : priv.Owns r ↔ r = .object priv.id ∨ r = .path priv.path := by
  cases r with
  | descriptor fd =>
    simp only [SipcServerPrivate.Owns,hempty,List.not_mem_nil,false_and,exists_false,or_false,reduceCtorEq,iff_false]
    omega
  | object id => simp [SipcServerPrivate.Owns,hempty]
  | path id => simp [SipcServerPrivate.Owns]

theorem SipcState.Good.ledger_eq_empty {t : SipcState} (h : t.Good) (hpriv : t.priv = none) : t.ledger = .empty := by
  ext r
  · rw [h.exact,hpriv]
    simp [Ledger.empty]
  · rw [h.watched,hpriv]
    simp [Ledger.empty]

theorem SipcState.Good.not_watched {t : SipcState} (h : t.Good) {r : SipcResource} (hr : ∀ fd, r ≠ .descriptor fd) :
    r ∉ t.ledger.watched := by
  rw [h.watched]
  rintro ⟨priv,-,fd,-,heq⟩
  exact hr fd heq

theorem exec_delete_closed {t : SipcState} (h : t.Good) (hclosed : ∀ priv ∈ t.priv, priv.fd < 0) :
    t.ledger.exec t.deletePriv = some .empty := by
  cases hpriv : t.priv with
  | none => rw [deletePriv,hpriv,h.ledger_eq_empty hpriv]; rfl
  | some priv =>
    have hfd := hclosed priv hpriv
    have hempty := h.closed priv hpriv hfd
    have hheld : ∀ r, r ∈ t.ledger.held ↔ r = .object priv.id ∨ r = .path priv.path := fun r => by
      rw [h.exact,hpriv,← owns_closed hfd hempty r]
      simp
    have hdelete : t.deletePriv = [.release (.path priv.path),.release (.object priv.id)] := by
      rw [deletePriv,hpriv]
      simp only [Option.elim_some,SipcServerPrivate.delete,hempty,List.flatMap_nil,List.nil_append]
      rw [if_neg (by omega)]
      rfl
    have hpath := Ledger.apply_release ((hheld _).mpr (Or.inr rfl)) (h.not_watched (fun fd => SipcResource.noConfusion))
    have hobject : SipcResource.object priv.id ∈ t.ledger.held.erase (.path priv.path) :=
      Finset.mem_erase.mpr ⟨SipcResource.noConfusion,(hheld _).mpr (Or.inl rfl)⟩
    have hlast := Ledger.apply_release (l := { t.ledger with held := t.ledger.held.erase (.path priv.path) }) hobject
      (h.not_watched (fun fd => SipcResource.noConfusion))
    rw [hdelete,Ledger.exec_cons,hpath,Option.bind_some,Ledger.exec_cons,hlast,Option.bind_some,Ledger.exec_nil]
    refine congrArg some (Ledger.ext ?_ ?_)
    · ext r
      simp only [Finset.mem_erase,hheld,Ledger.empty,Finset.notMem_empty,iff_false]
      tauto
    · ext r
      rw [h.watched]
      constructor
      · rintro ⟨priv',hpriv',fd,hlistens,-⟩
        obtain rfl : priv = priv' := Option.some.inj (hpriv.symm.trans hpriv')
        rcases hlistens with ⟨rfl,hpos⟩ | ⟨cp,hcp,-⟩
        · omega
        · rw [hempty] at hcp
          cases hcp
      · exact fun hr => absurd hr (Finset.notMem_empty r)

/-- A server that listens is still watched when its descriptor is closed. -/
theorem exec_delete_listening {t : SipcState} (h : t.Good) {priv : SipcServerPrivate} (hpriv : t.priv = some priv)
    (hfd : 0 ≤ priv.fd) : t.ledger.exec t.deletePriv = none := by
  have hdelete : t.deletePriv = priv.delete := by rw [deletePriv,hpriv]; rfl
  have hwatched : SipcResource.descriptor priv.fd ∈ t.ledger.watched :=
    (h.watched _).mpr ⟨priv,hpriv,priv.fd,Or.inl ⟨rfl,hfd⟩,rfl⟩
  rw [hdelete,SipcServerPrivate.delete,if_pos (by omega)]
  refine Ledger.exec_release_watched hwatched (fun hmem => ?_) ?_
  · simp only [List.append_assoc,List.mem_append,List.mem_flatMap,List.mem_cons,List.not_mem_nil,or_false,reduceCtorEq,
      Effect.unwatch.injEq,SipcResource.descriptor.injEq] at hmem
    obtain ⟨cp,hcp,heq⟩ := hmem
    exact h.distinct priv hpriv hfd cp hcp heq.symm
  · simp

/-! ## Steps -/

theorem requestName_none_of_listening {t : SipcState} (h : t.ledger.exec t.deletePriv = none) (named taken : Bool)
    (socket : Option ℕ) (bound : Bool) : t.ledger.exec (t.requestName named taken socket bound).2 = none := by
  unfold SipcState.requestName
  split_ifs
  · exact h
  · rw [Ledger.exec_append,h]
    rfl
  · cases socket with
    | none => simp only [Ledger.exec_append,h,Option.bind_none]
    | some n =>
      cases bound with
      | false => simp only [Ledger.exec_append,h,Option.bind_none]
      | true => simp only [Ledger.exec_append,h,Option.bind_none]

theorem good_unconnected {t : SipcState} (hdelete : t.ledger.exec t.deletePriv = some .empty) {bound : Bool}
    (ha : (requestName true false none bound).Applies t) :
    ∃ t', (requestName true false none bound).step t = some t' ∧ t'.Good := by
  have hrun : (requestName true false none bound).run t = (some ⟨t.next,-1,t.next,[]⟩,
      t.deletePriv ++ [.obtain (.path t.next),.obtain (.object t.next)]) := by
    simp [run,SipcState.requestName]
  have hexec : t.ledger.exec (t.deletePriv ++ [.obtain (.path t.next),.obtain (.object t.next)]) =
      some ⟨{.object t.next,.path t.next},∅⟩ := by
    rw [Ledger.exec_append,hdelete]
    simp [Ledger.apply,Ledger.empty]
  refine ⟨_,step_eq ha hrun hexec,fun r => ?_,fun r => ?_,fun priv hpriv _ => ?_,fun priv hpriv hfd => ?_,
    fun id hid => ?_⟩
  · have hclosed : (⟨t.next,-1,t.next,[]⟩ : SipcServerPrivate).fd < 0 := Int.negSucc_lt_zero 0
    have howns := owns_closed hclosed rfl r
    simpa using howns.symm
  · simp [SipcServerPrivate.Listens]
  · obtain rfl := Option.some.inj hpriv
    rfl
  · obtain rfl := Option.some.inj hpriv
    exact absurd hfd (show ¬ (0 : ℤ) ≤ -1 by decide)
  · simp only [Finset.mem_insert,Finset.mem_singleton,reduceCtorEq,SipcResource.object.injEq,SipcResource.path.injEq,
      false_or,or_false]
    dsimp only at hid
    omega

theorem good_listening {t : SipcState} (hdelete : t.ledger.exec t.deletePriv = some .empty) {n : ℕ}
    (ha : (requestName true false (some n) true).Applies t) :
    ∃ t', (requestName true false (some n) true).step t = some t' ∧ t'.Good := by
  have hrun : (requestName true false (some n) true).run t = (some ⟨t.next,n,t.next,[]⟩,
      t.deletePriv ++ [.obtain (.path t.next),.obtain (.object t.next),.obtain (.descriptor n),
        .watch (.descriptor n)]) := by
    simp [run,SipcState.requestName]
  have hexec : t.ledger.exec (t.deletePriv ++ [.obtain (.path t.next),.obtain (.object t.next),
      .obtain (.descriptor n),.watch (.descriptor n)]) =
      some ⟨{.descriptor n,.object t.next,.path t.next},{.descriptor n}⟩ := by
    rw [Ledger.exec_append,hdelete]
    simp [Ledger.apply,Ledger.empty]
  refine ⟨_,step_eq ha hrun hexec,fun r => ?_,fun r => ?_,fun priv hpriv hfd => ?_,fun priv hpriv hfd => ?_,
    fun id hid => ?_⟩
  · cases r with
    | descriptor fd =>
      simp only [SipcServerPrivate.Owns,Finset.mem_insert,Finset.mem_singleton,SipcResource.descriptor.injEq,
        reduceCtorEq,Option.mem_some_iff,exists_eq_left',List.not_mem_nil,false_and,exists_false,or_false]
      omega
    | object id => simp [SipcServerPrivate.Owns]
    | path id => simp [SipcServerPrivate.Owns]
  · simp [SipcServerPrivate.Listens]
  · obtain rfl := Option.some.inj hpriv
    rfl
  · obtain rfl := Option.some.inj hpriv
    exact fun cp hcp => absurd hcp List.not_mem_nil
  · simp only [Finset.mem_insert,Finset.mem_singleton,reduceCtorEq,SipcResource.object.injEq,SipcResource.path.injEq,
      false_or,or_false]
    dsimp only at hid
    omega

theorem good_new {t : SipcState} (hdelete : t.ledger.exec t.deletePriv = some .empty) {socket : Option ℕ} {bound : Bool}
    (hbound : bound = false → socket = none) (ha : (requestName true false socket bound).Applies t) :
    ∃ t', (requestName true false socket bound).step t = some t' ∧ t'.Good := by
  cases socket with
  | none => exact good_unconnected hdelete ha
  | some n =>
    obtain rfl : bound = true := by
      cases bound with
      | false => cases hbound rfl
      | true => rfl
    exact good_listening hdelete ha

theorem exec_accept {t : SipcState} (h : t.Good) (priv : SipcServerPrivate) {accepted : Option ℕ}
    (haccepted : ∀ n ∈ accepted, SipcResource.descriptor n ∉ t.ledger.held) :
    ∃ held, t.ledger.exec (priv.acceptNewConnection t.next accepted).2 =
        some ⟨held,insert (.descriptor (accepted.elim (-1) (fun n => n))) t.ledger.watched⟩ ∧
      ∀ r, r ∈ held ↔ r ∈ t.ledger.held ∨ r = .object t.next ∨
        r = .descriptor (accepted.elim (-1) (fun n => n)) ∧ 0 ≤ accepted.elim (-1 : ℤ) (fun n => n) := by
  have hobject := (h.fresh t.next (Nat.le_refl _)).1
  cases accepted with
  | none =>
    refine ⟨insert (.object t.next) t.ledger.held,
      by simp [SipcServerPrivate.acceptNewConnection,Ledger.apply,hobject],?_⟩
    intro r
    simp [or_comm]
  | some n =>
    have hn := haccepted n rfl
    refine ⟨insert (.descriptor n) (insert (.object t.next) t.ledger.held),
      by simp [SipcServerPrivate.acceptNewConnection,Ledger.apply,hobject,hn],?_⟩
    intro r
    simp only [Finset.mem_insert,Option.elim_some,Int.natCast_nonneg,and_true]
    tauto

theorem owns_snoc (priv : SipcServerPrivate) (cp : SipcClientPrivate) (r : SipcResource) :
    SipcServerPrivate.Owns { priv with acceptedConnections := priv.acceptedConnections ++ [cp] } r ↔
      priv.Owns r ∨ r = .object cp.id ∨ r = .descriptor cp.fd ∧ 0 ≤ cp.fd := by
  cases r with
  | descriptor fd =>
    simp only [SipcServerPrivate.Owns,List.mem_append,List.mem_singleton,or_and_right,exists_or,exists_eq_left,
      reduceCtorEq,SipcResource.descriptor.injEq,false_or]
    constructor
    · rintro ⟨hpos,hfd | hold | rfl⟩
      · exact Or.inl ⟨hpos,Or.inl hfd⟩
      · exact Or.inl ⟨hpos,Or.inr hold⟩
      · exact Or.inr ⟨rfl,hpos⟩
    · rintro (⟨hpos,hfd | hold⟩ | ⟨rfl,hpos⟩)
      · exact ⟨hpos,Or.inl hfd⟩
      · exact ⟨hpos,Or.inr (Or.inl hold)⟩
      · exact ⟨hpos,Or.inr (Or.inr rfl)⟩
  | object id =>
    simp only [SipcServerPrivate.Owns,List.mem_append,List.mem_singleton,or_and_right,exists_or,exists_eq_left,
      reduceCtorEq,SipcResource.object.injEq,false_and,or_false,or_assoc]
    rw [eq_comm (a := cp.id)]
  | path id => simp [SipcServerPrivate.Owns]

theorem listens_snoc (priv : SipcServerPrivate) (cp : SipcClientPrivate) (fd : ℤ) :
    SipcServerPrivate.Listens { priv with acceptedConnections := priv.acceptedConnections ++ [cp] } fd ↔
      priv.Listens fd ∨ cp.fd = fd := by
  simp only [SipcServerPrivate.Listens,List.mem_append,List.mem_singleton,or_and_right,exists_or,exists_eq_left,
    or_assoc]

theorem good_accept {t : SipcState} (h : t.Good) {priv : SipcServerPrivate} (hpriv : t.priv = some priv)
    (hfd : 0 ≤ priv.fd) {accepted : Option ℕ} (haccepted : ∀ n ∈ accepted, SipcResource.descriptor n ∉ t.ledger.held) :
    ∃ ledger, t.ledger.exec (priv.acceptNewConnection t.next accepted).2 = some ledger ∧
      Good ⟨some (priv.acceptNewConnection t.next accepted).1,ledger,t.next + 1⟩ := by
  obtain ⟨held,hexec,hheld⟩ := exec_accept h priv haccepted
  have hdistinct : accepted.elim (-1 : ℤ) (fun n => n) ≠ priv.fd := by
    cases accepted with
    | none =>
      rw [Option.elim_none]
      omega
    | some n =>
      intro heq
      refine haccepted n rfl ((h.exact _).mpr ⟨priv,hpriv,?_,Or.inl heq⟩)
      exact Int.natCast_nonneg n
  refine ⟨_,hexec,fun r => ?_,fun r => ?_,fun priv' hpriv' hneg => ?_,fun priv' hpriv' _ cp hcp => ?_,fun id hid => ?_⟩
  · rw [hheld,h.exact,hpriv]
    simp only [Option.mem_some_iff,exists_eq_left']
    exact (owns_snoc priv ⟨t.next,accepted.elim (-1) (fun n => n)⟩ r).symm
  · rw [Finset.mem_insert,h.watched,hpriv]
    simp only [Option.mem_some_iff,exists_eq_left',SipcServerPrivate.acceptNewConnection,listens_snoc]
    constructor
    · rintro (rfl | ⟨fd,hlistens,rfl⟩)
      · exact ⟨_,Or.inr rfl,rfl⟩
      · exact ⟨fd,Or.inl hlistens,rfl⟩
    · rintro ⟨fd,hlistens | rfl,rfl⟩
      · exact Or.inr ⟨fd,hlistens,rfl⟩
      · exact Or.inl rfl
  · obtain rfl := Option.some.inj hpriv'
    exact absurd hneg (by dsimp only [SipcServerPrivate.acceptNewConnection]; omega)
  · obtain rfl := Option.some.inj hpriv'
    rcases List.mem_append.mp hcp with hcp | hcp
    · exact h.distinct priv hpriv hfd cp hcp
    · rw [List.mem_singleton.mp hcp]
      exact hdistinct
  · have hlt : t.next + 1 ≤ id := hid
    have hfresh := h.fresh id (Nat.le_of_lt hlt)
    dsimp only
    rw [hheld,hheld]
    simp only [hfresh,SipcResource.object.injEq,reduceCtorEq,false_and,or_false,false_or,not_false_eq_true,and_true]
    omega

/-- The end of a connection closes its descriptor twice. -/
theorem exec_disconnect (l : Ledger SipcResource) {priv : SipcServerPrivate} {fd : ℤ} (hfd : 0 ≤ fd)
    (hclient : ∃ cp ∈ priv.acceptedConnections, cp.fd = fd) : l.exec (priv.disconnect fd).2 = none := by
  obtain ⟨cp,hcp,heq⟩ := hclient
  unfold SipcServerPrivate.disconnect
  cases hfind : priv.acceptedConnections.find? (fun cp => cp.fd = fd) with
  | none => exact absurd heq (by simpa using List.find?_eq_none.mp hfind cp hcp)
  | some found =>
    have hfound : found.fd = fd := by simpa using List.find?_some hfind
    dsimp only
    rw [SipcClientPrivate.delete,if_pos (by omega),hfound]
    exact Ledger.exec_release_twice _ _ _

/-- A message changes nothing. -/
theorem SipcState.Good.later {t : SipcState} (h : t.Good) : Good ⟨t.priv,t.ledger,t.next + 1⟩ :=
  ⟨h.exact,h.watched,h.closed,h.distinct,fun id hid => h.fresh id (Nat.le_of_succ_le hid)⟩

/-- The listener calls for the server or for a client of it. -/
theorem listens_of_applies {t : SipcState} (h : t.Good) {fd : ℤ} {accepted : Option ℕ} {ended : Bool}
    (ha : (callback fd accepted ended).Applies t) : ∃ priv, t.priv = some priv ∧ priv.Listens fd := by
  obtain ⟨priv,hpriv,fd',hlistens,heq⟩ := (h.watched _).mp ha.2.1
  obtain rfl := SipcResource.descriptor.inj heq
  exact ⟨priv,hpriv,hlistens⟩

theorem exec_obtain_release (r : SipcResource) : Ledger.empty.exec [.obtain r,.release r] = some .empty := by
  rw [Ledger.exec_cons,Ledger.apply_obtain (Finset.notMem_empty r),Option.bind_some,Ledger.exec_cons,
    Ledger.apply_release (Finset.mem_insert_self r _) (Finset.notMem_empty r),Option.bind_some,Ledger.exec_nil]
  exact congrArg some (Ledger.ext (Finset.erase_insert (Finset.notMem_empty r)) rfl)

/-- A pointer to a structure that is not held any more is not exact. -/
theorem priv_eq_none_of_exact {p : Option SipcServerPrivate} {n : ℕ} (h : Exact ⟨p,.empty,n⟩) : p = none := by
  cases p with
  | none => rfl
  | some priv => exact absurd ((h (.object priv.id)).mpr ⟨priv,rfl,Or.inl rfl⟩) (Finset.notMem_empty _)

/-- A step that meets the condition is possible and keeps the invariant. -/
theorem good_step {t : SipcState} (h : t.Good) {a : ServerAction} (hmeets : a.Meets t) (ha : a.Applies t) :
    ∃ t', a.step t = some t' ∧ t'.Good := by
  cases a with
  | requestName named taken socket bound =>
    obtain ⟨hclosed,hearly,hbound⟩ := hmeets ha
    have hdelete := exec_delete_closed h hclosed
    cases named with
    | false =>
      have hnone := hearly (Or.inl rfl)
      have hrun : (requestName false taken socket bound).run t = (none,t.deletePriv) := by
        rw [run,SipcState.requestName,if_pos rfl,hnone]
      exact ⟨_,step_eq ha hrun hdelete,good_none _⟩
    | true =>
      cases taken with
      | false => exact good_new hdelete (hbound rfl rfl) ha
      | true =>
        have hnone := hearly (Or.inr rfl)
        have hrun : (requestName true true socket bound).run t =
            (none,t.deletePriv ++ [.obtain (.path t.next),.release (.path t.next)]) := by
          rw [run,SipcState.requestName,if_neg (by decide),if_pos rfl,hnone]
        have hexec : t.ledger.exec (t.deletePriv ++ [.obtain (.path t.next),.release (.path t.next)]) =
            some .empty := by
          rw [Ledger.exec_append,hdelete,Option.bind_some]
          exact exec_obtain_release _
        exact ⟨_,step_eq ha hrun hexec,good_none _⟩
  | callback fd accepted ended =>
    obtain ⟨priv,hpriv,hlistens⟩ := listens_of_applies h ha
    by_cases hfd : priv.fd = fd
    · have hrun : (callback fd accepted ended).run t = (some (priv.acceptNewConnection t.next accepted).1,
          (priv.acceptNewConnection t.next accepted).2) := by
        simp only [run,hpriv,SipcServerPrivate.serverCb,if_pos hfd]
      obtain ⟨ledger,hexec,hgood⟩ := good_accept h hpriv (hfd ▸ ha.1) ha.2.2
      exact ⟨_,step_eq ha hrun hexec,hgood⟩
    · have hended : ended = false := by
        rw [← Bool.not_eq_true]
        exact fun hended => hfd (hmeets ha hended priv hpriv)
      have hrun : (callback fd accepted ended).run t = (t.priv,[]) := by
        simp only [run,hpriv,SipcServerPrivate.serverCb,if_neg hfd,hended,Bool.false_eq_true,if_false]
      exact ⟨_,step_eq ha hrun (Ledger.exec_nil _),h.later⟩
  | destroy => exact ⟨_,step_eq ha rfl (exec_delete_closed h (hmeets ha)),good_none _⟩

theorem closed_of_exec {t : SipcState} (h : t.Good) (hexec : t.ledger.exec t.deletePriv ≠ none) :
    ∀ priv ∈ t.priv, priv.fd < 0 := by
  intro priv hpriv
  by_contra hfd
  exact hexec (exec_delete_listening h hpriv (by omega))

/-- A call that makes no server must find none, or what it frees is still pointed to. -/
theorem priv_eq_none_of_early {t : SipcState} (hdelete : t.ledger.exec t.deletePriv = some .empty) {named taken : Bool}
    {socket : Option ℕ} {bound : Bool} (hearly : named = false ∨ taken = true) {ledger : Ledger SipcResource}
    (hledger : t.ledger.exec ((requestName named taken socket bound).run t).2 = some ledger)
    (hexact : Exact ⟨((requestName named taken socket bound).run t).1,ledger,t.next + 1⟩) : t.priv = none := by
  cases named with
  | false =>
    rw [run,SipcState.requestName,if_pos rfl] at hledger hexact
    rw [hdelete] at hledger
    obtain rfl := Option.some.inj hledger
    exact priv_eq_none_of_exact hexact
  | true =>
    obtain rfl : taken = true := hearly.resolve_left (by decide)
    rw [run,SipcState.requestName,if_neg (by decide),if_pos rfl] at hledger hexact
    rw [Ledger.exec_append,hdelete,Option.bind_some,exec_obtain_release] at hledger
    obtain rfl := Option.some.inj hledger
    exact priv_eq_none_of_exact hexact

/-- A socket that cannot be bound is lost. -/
theorem socket_eq_none_of_unbound {t : SipcState} (hdelete : t.ledger.exec t.deletePriv = some .empty)
    {socket : Option ℕ} {ledger : Ledger SipcResource}
    (hledger : t.ledger.exec ((requestName true false socket false).run t).2 = some ledger)
    (hexact : Exact ⟨((requestName true false socket false).run t).1,ledger,t.next + 1⟩) : socket = none := by
  cases socket with
  | none => rfl
  | some n =>
    rw [run,SipcState.requestName,if_neg (by decide),if_neg (by decide)] at hledger hexact
    have hheld : SipcResource.descriptor n ∈ ledger.held := by
      rw [Ledger.exec_append,Ledger.exec_append,hdelete] at hledger
      have heq : some ledger = some ⟨{.descriptor n,.object t.next,.path t.next},∅⟩ := by
        rw [← hledger]
        simp [Ledger.apply,Ledger.empty]
      obtain rfl := Option.some.inj heq
      exact Finset.mem_insert_self _ _
    obtain ⟨priv,hpriv,-,howns⟩ := (hexact _).mp hheld
    obtain rfl := Option.some.inj hpriv
    rcases howns with heq | ⟨cp,hcp,-⟩
    · dsimp only at heq
      omega
    · cases hcp

theorem lawful_iff {t : SipcState} (h : t.Good) (a : ServerAction) : a.Lawful t ↔ a.Meets t := by
  constructor
  · intro hlawful ha
    obtain ⟨t',hstep,hexact⟩ := hlawful ha
    rw [step,if_pos ha] at hstep
    obtain ⟨ledger,hledger,rfl⟩ := Option.map_eq_some_iff.mp hstep
    cases a with
    | requestName named taken socket bound =>
      have hclosed : ∀ priv ∈ t.priv, priv.fd < 0 := by
        refine closed_of_exec h (fun hnone => ?_)
        rw [run,requestName_none_of_listening hnone] at hledger
        cases hledger
      have hdelete := exec_delete_closed h hclosed
      refine ⟨hclosed,fun hearly => priv_eq_none_of_early hdelete hearly hledger hexact,?_⟩
      rintro rfl rfl rfl
      exact socket_eq_none_of_unbound hdelete hledger hexact
    | callback fd accepted ended =>
      intro hended priv hpriv
      by_contra hfd
      obtain ⟨priv',hpriv',hlistens⟩ := listens_of_applies h ha
      obtain rfl : priv = priv' := Option.some.inj (hpriv.symm.trans hpriv')
      have hclient := hlistens.resolve_left (fun hserver => hfd hserver.1.symm)
      simp only [run,Option.mem_def.mp hpriv,SipcServerPrivate.serverCb,if_neg hfd,hended,if_true] at hledger
      rw [exec_disconnect t.ledger ha.1 hclient] at hledger
      cases hledger
    | destroy =>
      refine closed_of_exec h (fun hnone => ?_)
      rw [run,hnone] at hledger
      cases hledger
  · intro hmeets ha
    obtain ⟨t',hstep,hgood⟩ := good_step h hmeets ha
    exact ⟨t',hstep,hgood.exact⟩

/-- Every descriptor, structure and path is released once in a run if and only if no client ends its
connection, no server is taken away while it listens or by a call that makes no other, and every
socket can be bound. -/
theorem released_once_iff (acts : List ServerAction) :
    Transition.Along step Lawful SipcState.initial acts ↔ Transition.Along step Meets SipcState.initial acts := by
  refine Transition.along_iff (I := Good) (fun t a h => lawful_iff h a) (fun t a t' h hlawful hstep => ?_) (good_none 0)
  have ha : a.Applies t := by
    by_contra hnot
    rw [step,if_neg hnot] at hstep
    cases hstep
  obtain ⟨t₁,hstep₁,hgood⟩ := good_step h ((lawful_iff h a).mp hlawful) ha
  rw [hstep] at hstep₁
  exact Option.some.inj hstep₁ ▸ hgood

/-- A client ends its connection, and its descriptor is closed twice. -/
theorem not_released_once : ¬ Transition.Along step Lawful SipcState.initial
    [requestName true false (some 3) true,callback 3 (some 4) false,callback 4 none true] := by
  intro h
  have hlawful := h [requestName true false (some 3) true,callback 3 (some 4) false] (callback 4 none true) [] rfl _ rfl
  obtain ⟨t',hstep,-⟩ := hlawful ⟨by decide,by decide,fun n hn => by cases hn⟩
  cases hstep

end Edelib.Sipc
