import Edelib.Foundation.Ledger

/-! # Streams that Files own

Two flags say whether a File has a stream to close and a name to free. A File that is constructed with
a name finds them as the memory was, and one that is open forgets its stream when it opens another.
-/
namespace Edelib
open Foundation

def NULL : ℕ := 0

def FIO_READ : BitVec 32 := 2
def FIO_WRITE : BitVec 32 := 4
def FIO_APPEND : BitVec 32 := 8
def FIO_BINARY : BitVec 32 := 16
def FIO_TRUNC : BitVec 32 := 32

def FILE_ENOENT : ℕ := 2
def FILE_FLAG : ℕ := 5

/-- A stream of `fopen` or a name of `new char[]`, by its address. -/
inductive FileResource
  | stream (a : ℕ)
  | name (a : ℕ)
deriving DecidableEq

/-- The members of a File; the pointers are addresses. -/
structure File where
  fobj : ℕ
  fname : ℕ
  fmode : BitVec 32
  errcode : ℕ
  opened : Bool
  alloc : Bool

namespace File

def initial : File := ⟨NULL,NULL,0,FILE_ENOENT,false,false⟩

/-- The flags of `fopen`; other modes are refused. -/
def flags (m : BitVec 32) : Option String :=
  [(FIO_READ,"r"),
   (FIO_WRITE,"w"),(FIO_WRITE ||| FIO_TRUNC,"w"),
   (FIO_WRITE ||| FIO_BINARY,"wb"),(FIO_WRITE ||| FIO_BINARY ||| FIO_TRUNC,"wb"),
   (FIO_APPEND,"a"),(FIO_WRITE ||| FIO_APPEND,"a"),
   (FIO_APPEND ||| FIO_BINARY,"ab"),(FIO_WRITE ||| FIO_APPEND ||| FIO_BINARY,"ab"),
   (FIO_READ ||| FIO_BINARY,"rb"),
   (FIO_READ ||| FIO_WRITE,"r+"),
   (FIO_READ ||| FIO_WRITE ||| FIO_BINARY,"r+b"),
   (FIO_READ ||| FIO_WRITE ||| FIO_TRUNC,"w+"),
   (FIO_READ ||| FIO_WRITE ||| FIO_TRUNC ||| FIO_BINARY,"w+b")].lookup m

def openWith (f : File) (m : BitVec 32) (a : ℕ) (succeeds : Bool) : File × List (Effect FileResource) :=
  if (flags m).isSome then
    let f := { f with fname := a, fmode := m, alloc := true }
    if succeeds then ({ f with fobj := a, opened := true },[.obtain (.name a),.obtain (.stream a)])
    else ({ f with fobj := NULL },[.obtain (.name a)])
  else ({ f with errcode := FILE_FLAG },[])

/-- `delete []` of a null pointer does nothing. -/
def close (f : File) : File × List (Effect FileResource) :=
  let freed := if f.alloc = true ∧ f.fname ≠ NULL then [.release (.name f.fname)] else []
  let f := if f.alloc then { f with fname := NULL, alloc := false } else f
  if f.opened then ({ f with opened := false },freed ++ [.release (.stream f.fobj)]) else (f,freed)

/-- What the flags say that the File has to give back. -/
def Owns (f : File) : FileResource → Prop
  | .stream a => f.opened = true ∧ f.fobj = a
  | .name a => f.alloc = true ∧ f.fname = a ∧ a ≠ NULL

end File

/-- The Files of a program by where they are, and what is open and allocated. -/
structure FileState where
  files : ℕ → Option File
  ledger : Ledger FileResource
  next : ℕ

namespace FileState

def initial : FileState := ⟨fun _ => none,.empty,1⟩

def Owned (t : FileState) (i : ℕ) (r : FileResource) : Prop := ∃ f ∈ t.files i, f.Owns r

/-- The flags are true, no two Files say the same, and no stream is left open that no File has. -/
structure Sound (t : FileState) : Prop where
  owned : ∀ i r, t.Owned i r → r ∈ t.ledger.held
  apart : ∀ i j r, t.Owned i r → t.Owned j r → i = j
  kept : ∀ a, .stream a ∈ t.ledger.held → ∃ i, t.Owned i (.stream a)

def Lost (t : FileState) (a : ℕ) : Prop := .name a ∈ t.ledger.held ∧ ∀ i, ¬ t.Owned i (.name a)

end FileState

inductive FileAction
  | create (i : ℕ)
  | createOpen (i : ℕ) (memory : File) (m : BitVec 32) (succeeds : Bool)
  | open (i : ℕ) (m : BitVec 32) (succeeds : Bool)
  | close (i : ℕ)
  | destroy (i : ℕ)

namespace FileAction

def target : FileAction → ℕ
  | create i => i
  | createOpen i _ _ _ => i
  | .open i _ _ => i
  | close i => i
  | destroy i => i

/-- A File is made where none is, and called where one is. -/
def Applies (t : FileState) : FileAction → Prop
  | create i => t.files i = none
  | createOpen i _ _ _ => t.files i = none
  | .open i _ _ => (t.files i).isSome
  | close i => (t.files i).isSome
  | destroy i => (t.files i).isSome

def run (t : FileState) : FileAction → Option File × List (Effect FileResource)
  | create _ => (some .initial,[])
  | createOpen _ memory m succeeds => ((memory.openWith m t.next succeeds).map some id)
  | .open i m succeeds => (t.files i).elim (none,[]) (fun f => (f.openWith m t.next succeeds).map some id)
  | close i => (t.files i).elim (none,[]) (fun f => f.close.map some id)
  | destroy i => (t.files i).elim (none,[]) (fun f => (none,f.close.2))

instance (t : FileState) : (a : FileAction) → Decidable (a.Applies t)
  | create i => decidable_of_iff ((t.files i).isNone = true) Option.isNone_iff_eq_none
  | createOpen i _ _ _ => decidable_of_iff ((t.files i).isNone = true) Option.isNone_iff_eq_none
  | .open i _ _ => inferInstanceAs (Decidable ((t.files i).isSome = true))
  | close i => inferInstanceAs (Decidable ((t.files i).isSome = true))
  | destroy i => inferInstanceAs (Decidable ((t.files i).isSome = true))

def step (t : FileState) (a : FileAction) : Option FileState :=
  if a.Applies t then
    (t.ledger.exec (a.run t).2).map (fun ledger => ⟨Function.update t.files a.target (a.run t).1,ledger,t.next + 1⟩)
  else none

/-- Nothing is closed or freed that is not open or allocated, and the flags stay true. -/
def Lawful (t : FileState) (a : FileAction) : Prop := a.Applies t → ∃ t', a.step t = some t' ∧ t'.Sound

/-- The memory of a File that is constructed with a name says that no stream is open, and for a mode
that is refused no name allocated, if the stream is not opened. A File that is open is not opened. -/
def Meets (t : FileState) (a : FileAction) : Prop :=
  a.Applies t → match a with
    | createOpen _ memory m succeeds =>
      if (File.flags m).isSome then succeeds = true ∨ memory.opened = false
      else memory.opened = false ∧ (memory.alloc = true → memory.fname = NULL ∨ t.Lost memory.fname)
    | .open i m _ => (File.flags m).isSome → ∀ f ∈ t.files i, f.opened = false
    | _ => True

end FileAction

/-! ## The invariant -/

def FileResource.addr : FileResource → ℕ
  | .stream a => a
  | .name a => a

namespace FileState

structure Good (t : FileState) : Prop where
  sound : t.Sound
  held : ∀ r ∈ t.ledger.held, NULL < r.addr ∧ r.addr < t.next
  pos : NULL < t.next
  unwatched : t.ledger.watched = ∅

theorem good_initial : Good initial where
  sound :=
    { owned := fun i r ⟨f,hf,_⟩ => by cases hf
      apart := fun i j r ⟨f,hf,_⟩ => by cases hf
      kept := fun a ha => absurd ha (Finset.notMem_empty _) }
  held := fun r hr => absurd hr (Finset.notMem_empty _)
  pos := Nat.zero_lt_one
  unwatched := rfl

variable {t : FileState} {i : ℕ} {f : File}

theorem Good.new (h : t.Good) {r : FileResource} (hr : r.addr = t.next) : r ∉ t.ledger.held :=
  fun hin => Nat.lt_irrefl _ (hr ▸ (h.held r hin).2)

theorem owned_iff (hf : t.files i = some f) {r : FileResource} : t.Owned i r ↔ f.Owns r := by
  simp [Owned,hf]

theorem not_owned (hf : t.files i = none) {r : FileResource} : ¬ t.Owned i r := by
  simp [Owned,hf]

/-- A File is changed, made or taken away; the others do not lose what is theirs. -/
theorem Good.set (h : t.Good) {f' : Option File} {held : Finset FileResource}
    (hown : ∀ r, (∃ f ∈ f', f.Owns r) → r ∈ held ∧ ∀ j, j ≠ i → ¬ t.Owned j r)
    (hother : ∀ r ∈ t.ledger.held, ¬ t.Owned i r → r ∈ held)
    (hkept : ∀ a, .stream a ∈ held → (∃ f ∈ f', f.Owns (.stream a)) ∨
      .stream a ∈ t.ledger.held ∧ ¬ t.Owned i (.stream a))
    (hnew : ∀ r ∈ held, r ∈ t.ledger.held ∨ r.addr = t.next) :
    Good ⟨Function.update t.files i f',⟨held,∅⟩,t.next + 1⟩ := by
  have hself : ∀ r, Owned ⟨Function.update t.files i f',⟨held,∅⟩,t.next + 1⟩ i r ↔ ∃ f ∈ f', f.Owns r := by
    intro r
    rw [Owned]
    dsimp only
    rw [Function.update_self]
  have hrest : ∀ j r, j ≠ i → (Owned ⟨Function.update t.files i f',⟨held,∅⟩,t.next + 1⟩ j r ↔ t.Owned j r) := by
    intro j r hj
    rw [Owned,Owned]
    dsimp only
    rw [Function.update_of_ne hj]
  refine ⟨⟨fun j r hr => ?_,fun j k r hj hk => ?_,fun a ha => ?_⟩,fun r hr => ?_,Nat.succ_pos _,rfl⟩
  · by_cases hji : j = i
    · subst hji
      exact (hown r ((hself r).mp hr)).1
    · have hold := (hrest j r hji).mp hr
      exact hother r (h.sound.owned j r hold) (fun hi => hji (h.sound.apart j i r hold hi))
  · by_cases hji : j = i
    · subst hji
      by_contra hkj
      exact (hown r ((hself r).mp hj)).2 k (Ne.symm hkj) ((hrest k r (Ne.symm hkj)).mp hk)
    · by_cases hki : k = i
      · subst hki
        exact absurd ((hrest j r hji).mp hj) ((hown r ((hself r).mp hk)).2 j hji)
      · exact h.sound.apart j k r ((hrest j r hji).mp hj) ((hrest k r hki).mp hk)
  · rcases hkept a ha with hi | ⟨hold,hnot⟩
    · exact ⟨i,(hself _).mpr hi⟩
    · obtain ⟨j,hj⟩ := h.sound.kept a hold
      have hji : j ≠ i := fun hji => hnot (hji ▸ hj)
      exact ⟨j,(hrest j _ hji).mpr hj⟩
  · have hpos := h.pos
    dsimp only
    rcases hnew r hr with hold | heq
    · have hbounds := h.held r hold
      omega
    · omega

/-- What is new has no owner. -/
theorem Good.not_owned_new (h : t.Good) {r : FileResource} (hr : r.addr = t.next) (j : ℕ) : ¬ t.Owned j r :=
  fun hown => h.new hr (h.sound.owned j r hown)

/-- A File that has nothing which another has is put where it is; the ledger stays. -/
theorem Good.put (h : t.Good) {f' : Option File} (hown : ∀ r, (∃ f ∈ f', f.Owns r) →
      r ∈ t.ledger.held ∧ ∀ j, j ≠ i → ¬ t.Owned j r)
    (hstream : ∀ a, t.Owned i (.stream a) → ∃ f ∈ f', f.Owns (.stream a)) :
    Good ⟨Function.update t.files i f',t.ledger,t.next + 1⟩ := by
  have hledger : t.ledger = ⟨t.ledger.held,∅⟩ := by rw [← h.unwatched]
  have hset := h.set hown (fun r hr _ => hr) (fun a ha => ?_) (fun r hr => Or.inl hr)
  · rwa [← hledger] at hset
  · by_cases hi : t.Owned i (.stream a)
    · exact Or.inl (hstream a hi)
    · exact Or.inr ⟨ha,hi⟩

end FileState

namespace FileAction
open FileState

/-! ## Steps -/

variable {t : FileState} {i : ℕ} {f : File} {m : BitVec 32} {succeeds : Bool}

theorem step_eq {a : FileAction} (ha : a.Applies t) {f' : Option File} {effects : List (Effect FileResource)}
    {ledger : Ledger FileResource} (hrun : a.run t = (f',effects)) (hexec : t.ledger.exec effects = some ledger) :
    a.step t = some ⟨Function.update t.files a.target f',ledger,t.next + 1⟩ := by
  rw [step,if_pos ha,hrun,hexec,Option.map_some]

theorem exec_name (h : t.Good) :
    t.ledger.exec [.obtain (.name t.next)] = some ⟨insert (.name t.next) t.ledger.held,∅⟩ := by
  rw [Ledger.exec_cons,Ledger.apply_obtain (h.new rfl),Option.bind_some,Ledger.exec_nil,h.unwatched]

theorem exec_stream (h : t.Good) : t.ledger.exec [.obtain (.name t.next),.obtain (.stream t.next)] =
    some ⟨insert (.stream t.next) (insert (.name t.next) t.ledger.held),∅⟩ := by
  have hstream : .stream t.next ∉ insert (.name t.next) t.ledger.held :=
    fun hin => (Finset.mem_insert.mp hin).elim FileResource.noConfusion (h.new rfl)
  rw [Ledger.exec_cons,Ledger.apply_obtain (h.new rfl),Option.bind_some,Ledger.exec_cons,Ledger.apply_obtain hstream,
    Option.bind_some,Ledger.exec_nil,h.unwatched]

theorem close_effects (f : File) : f.close.2 =
    (if f.alloc = true ∧ f.fname ≠ NULL then [.release (.name f.fname)] else []) ++
      (if f.opened = true then [.release (.stream f.fobj)] else []) := by
  cases halloc : f.alloc <;> cases hopened : f.opened <;> simp [File.close,halloc,hopened]

theorem close_not_owns (f : File) (r : FileResource) : ¬ f.close.1.Owns r := by
  cases r <;> cases halloc : f.alloc <;> cases hopened : f.opened <;> simp [File.close,File.Owns,halloc,hopened]

theorem exec_release_if {p : Prop} [Decidable p] {held : Finset FileResource} {r : FileResource} (h : p → r ∈ held) :
    Ledger.exec ⟨held,∅⟩ (if p then [.release r] else []) = some ⟨if p then held.erase r else held,∅⟩ := by
  by_cases hp : p
  · rw [if_pos hp,if_pos hp,Ledger.exec_cons,Ledger.apply_release (h hp) (Finset.notMem_empty _)]
    rfl
  · rw [if_neg hp,if_neg hp]
    rfl

theorem mem_erase_if {p : Prop} [Decidable p] {held : Finset FileResource} {r r' : FileResource} :
    r' ∈ (if p then held.erase r else held) ↔ r' ∈ held ∧ ¬ (p ∧ r' = r) := by
  by_cases hp : p
  · rw [if_pos hp,Finset.mem_erase,and_comm]
    simp [hp]
  · simp [hp]

/-- What a File has is given back. -/
theorem exec_close (h : t.Good) (hf : t.files i = some f) :
    ∃ held, t.ledger.exec f.close.2 = some ⟨held,∅⟩ ∧ ∀ r, r ∈ held ↔ r ∈ t.ledger.held ∧ ¬ f.Owns r := by
  have howned : ∀ r, f.Owns r → r ∈ t.ledger.held := fun r hr => h.sound.owned i r ((owned_iff hf).mpr hr)
  have hledger : t.ledger = ⟨t.ledger.held,∅⟩ := by rw [← h.unwatched]
  have hname : f.alloc = true ∧ f.fname ≠ NULL → .name f.fname ∈ t.ledger.held :=
    fun hn => howned (.name f.fname) ⟨hn.1,rfl,hn.2⟩
  have hstream : f.opened = true →
      .stream f.fobj ∈ (if f.alloc = true ∧ f.fname ≠ NULL then t.ledger.held.erase (.name f.fname) else t.ledger.held) :=
    fun hs => mem_erase_if.mpr ⟨howned (.stream f.fobj) ⟨hs,rfl⟩,fun hn => FileResource.noConfusion hn.2⟩
  have hfirst := exec_release_if hname
  rw [← hledger] at hfirst
  obtain ⟨kept,hkept⟩ : ∃ kept, kept = if f.alloc = true ∧ f.fname ≠ NULL then t.ledger.held.erase (.name f.fname)
    else t.ledger.held := ⟨_,rfl⟩
  rw [← hkept] at hfirst hstream
  refine ⟨if f.opened = true then kept.erase (.stream f.fobj) else kept,?_,fun r => ?_⟩
  · rw [close_effects,Ledger.exec_append,hfirst,Option.bind_some,exec_release_if hstream]
  rw [hkept]
  rw [mem_erase_if,mem_erase_if,and_assoc]
  refine and_congr_right (fun _ => ?_)
  cases r with
  | stream a =>
    simp only [File.Owns,reduceCtorEq,and_false,not_false_eq_true,true_and,FileResource.stream.injEq]
    rw [eq_comm (a := a)]
  | name a =>
    simp only [File.Owns,reduceCtorEq,and_false,not_false_eq_true,and_true,FileResource.name.injEq]
    rw [eq_comm (a := a),and_assoc]
    refine not_congr (and_congr_right (fun _ => ?_))
    constructor
    · rintro ⟨hne,rfl⟩
      exact ⟨rfl,hne⟩
    · rintro ⟨rfl,hne⟩
      exact ⟨hne,rfl⟩

/-! ### Opening -/

theorem openWith_refused (hflags : ¬ (File.flags m).isSome = true) (a : ℕ) :
    f.openWith m a succeeds = ({ f with errcode := FILE_FLAG },[]) := if_neg hflags

theorem openWith_ok (hflags : (File.flags m).isSome = true) (a : ℕ) : f.openWith m a true =
    ({ f with fname := a, fmode := m, alloc := true, fobj := a, opened := true },[.obtain (.name a),.obtain (.stream a)]) :=
  if_pos hflags

theorem openWith_fails (hflags : (File.flags m).isSome = true) (a : ℕ) : f.openWith m a false =
    ({ f with fname := a, fmode := m, alloc := true, fobj := NULL },[.obtain (.name a)]) := if_pos hflags

/-- A File that has no stream opens one, or fails to. -/
theorem good_openWith (h : t.Good) (hflags : (File.flags m).isSome = true) (hold : ∀ a, ¬ t.Owned i (.stream a))
    (hopened : succeeds = true ∨ f.opened = false) :
    ∃ ledger, t.ledger.exec (f.openWith m t.next succeeds).2 = some ledger ∧
      Good ⟨Function.update t.files i (some (f.openWith m t.next succeeds).1),ledger,t.next + 1⟩ := by
  have hpos := h.pos
  cases succeeds with
  | true =>
    rw [openWith_ok hflags]
    refine ⟨_,exec_stream h,h.set (fun r hr => ?_) (fun r hr _ => ?_) (fun a ha => ?_) (fun r hr => ?_)⟩
    · obtain ⟨g,hg,hown⟩ := hr
      obtain rfl := Option.some.inj hg
      cases r with
      | stream a =>
        obtain rfl : t.next = a := hown.2
        exact ⟨Finset.mem_insert_self _ _,fun j _ => h.not_owned_new rfl j⟩
      | name a =>
        obtain rfl : t.next = a := hown.2.1
        exact ⟨Finset.mem_insert_of_mem (Finset.mem_insert_self _ _),fun j _ => h.not_owned_new rfl j⟩
    · exact Finset.mem_insert_of_mem (Finset.mem_insert_of_mem hr)
    · rcases Finset.mem_insert.mp ha with heq | ha
      · exact Or.inl ⟨_,rfl,rfl,(FileResource.stream.inj heq).symm⟩
      · exact Or.inr ⟨(Finset.mem_insert.mp ha).resolve_left FileResource.noConfusion,hold a⟩
    · rcases Finset.mem_insert.mp hr with rfl | hr
      · exact Or.inr rfl
      · rcases Finset.mem_insert.mp hr with rfl | hr
        · exact Or.inr rfl
        · exact Or.inl hr
  | false =>
    have hopened := hopened.resolve_left Bool.false_ne_true
    rw [openWith_fails hflags]
    refine ⟨_,exec_name h,h.set (fun r hr => ?_) (fun r hr _ => ?_) (fun a ha => ?_) (fun r hr => ?_)⟩
    · obtain ⟨g,hg,hown⟩ := hr
      obtain rfl := Option.some.inj hg
      cases r with
      | stream a => exact absurd (hopened.symm.trans hown.1) Bool.false_ne_true
      | name a =>
        obtain rfl : t.next = a := hown.2.1
        exact ⟨Finset.mem_insert_self _ _,fun j _ => h.not_owned_new rfl j⟩
    · exact Finset.mem_insert_of_mem hr
    · exact Or.inr ⟨(Finset.mem_insert.mp ha).resolve_left FileResource.noConfusion,hold a⟩
    · exact (Finset.mem_insert.mp hr).elim (fun heq => Or.inr (heq ▸ rfl)) Or.inl

/-! ### The other calls -/

/-- What a File has at the end of `close` is nothing. -/
theorem good_close (h : t.Good) (hf : t.files i = some f) {f' : Option File} (hf' : ∀ r, ¬ ∃ f ∈ f', f.Owns r) :
    ∃ ledger, t.ledger.exec f.close.2 = some ledger ∧ Good ⟨Function.update t.files i f',ledger,t.next + 1⟩ := by
  obtain ⟨held,hexec,hheld⟩ := exec_close h hf
  refine ⟨_,hexec,h.set (fun r hr => absurd hr (hf' r)) (fun r hr hnot => ?_) (fun a ha => ?_) (fun r hr => ?_)⟩
  · exact (hheld r).mpr ⟨hr,fun hown => hnot ((owned_iff hf).mpr hown)⟩
  · obtain ⟨hold,hnot⟩ := (hheld _).mp ha
    exact Or.inr ⟨hold,fun hown => hnot ((owned_iff hf).mp hown)⟩
  · exact Or.inl ((hheld r).mp hr).1

theorem files_of_applies {i : ℕ} (ha : (t.files i).isSome) : ∃ f, t.files i = some f := Option.isSome_iff_exists.mp ha

theorem good_createOpen {memory : File} (h : t.Good) (ha : (createOpen i memory m succeeds).Applies t)
    (hmeets : (createOpen i memory m succeeds).Meets t) :
    ∃ t', (createOpen i memory m succeeds).step t = some t' ∧ t'.Good := by
  have hmemory := hmeets ha
  dsimp only at hmemory
  by_cases hflags : (File.flags m).isSome = true
  · rw [if_pos hflags] at hmemory
    obtain ⟨ledger,hexec,hgood⟩ := good_openWith h hflags (fun a => not_owned ha) hmemory
    exact ⟨_,step_eq ha rfl hexec,hgood⟩
  · rw [if_neg hflags] at hmemory
    have hrun : (createOpen i memory m succeeds).run t = (some { memory with errcode := FILE_FLAG },[]) := by
      rw [run,openWith_refused hflags]
      rfl
    refine ⟨_,step_eq ha hrun (Ledger.exec_nil _),h.put (fun r hr => ?_) (fun a hown => absurd hown (not_owned ha))⟩
    obtain ⟨g,hg,hown⟩ := hr
    obtain rfl := Option.some.inj hg
    cases r with
    | stream a => exact absurd (hmemory.1.symm.trans hown.1) Bool.false_ne_true
    | name a =>
      obtain ⟨halloc,rfl,hne⟩ := hown
      obtain ⟨hheld,hlost⟩ := (hmemory.2 halloc).resolve_left hne
      exact ⟨hheld,fun j _ => hlost j⟩

theorem good_open (h : t.Good) (ha : (FileAction.open i m succeeds).Applies t)
    (hmeets : (FileAction.open i m succeeds).Meets t) :
    ∃ t', (FileAction.open i m succeeds).step t = some t' ∧ t'.Good := by
  obtain ⟨f,hf⟩ := files_of_applies ha
  by_cases hflags : (File.flags m).isSome = true
  · have hclosed : f.opened = false := hmeets ha hflags f hf
    have hold : ∀ a, ¬ t.Owned i (.stream a) :=
      fun a hown => absurd (hclosed.symm.trans ((owned_iff hf).mp hown).1) Bool.false_ne_true
    obtain ⟨ledger,hexec,hgood⟩ := good_openWith h hflags hold (Or.inr hclosed)
    have hrun : (FileAction.open i m succeeds).run t =
        (some (f.openWith m t.next succeeds).1,(f.openWith m t.next succeeds).2) := by
      rw [run,hf]
      rfl
    exact ⟨_,step_eq ha hrun hexec,hgood⟩
  · have hrun : (FileAction.open i m succeeds).run t = (some { f with errcode := FILE_FLAG },[]) := by
      rw [run,hf,Option.elim_some,openWith_refused hflags]
      rfl
    have hsame : ∀ r, File.Owns { f with errcode := FILE_FLAG } r ↔ t.Owned i r := by
      intro r
      rw [owned_iff hf]
      cases r <;> rfl
    refine ⟨_,step_eq ha hrun (Ledger.exec_nil _),h.put (fun r hr => ?_) (fun a hown => ⟨_,rfl,(hsame _).mpr hown⟩)⟩
    obtain ⟨g,hg,hown⟩ := hr
    obtain rfl := Option.some.inj hg
    have hown := (hsame r).mp hown
    exact ⟨h.sound.owned i r hown,fun j hj hj' => hj (h.sound.apart j i r hj' hown)⟩

/-- A step that meets the condition is possible and keeps the invariant. -/
theorem good_step (h : t.Good) {a : FileAction} (hmeets : a.Meets t) (ha : a.Applies t) :
    ∃ t', a.step t = some t' ∧ t'.Good := by
  cases a with
  | create i =>
    refine ⟨_,step_eq ha rfl (Ledger.exec_nil _),h.put (fun r hr => ?_) (fun a hown => absurd hown (not_owned ha))⟩
    obtain ⟨g,hg,hown⟩ := hr
    obtain rfl := Option.some.inj hg
    cases r with
    | stream a => cases hown.1
    | name a => cases hown.1
  | createOpen i memory m succeeds => exact good_createOpen h ha hmeets
  | «open» i m succeeds => exact good_open h ha hmeets
  | close i =>
    obtain ⟨f,hf⟩ := files_of_applies ha
    have hrun : (FileAction.close i).run t = (some f.close.1,f.close.2) := by
      rw [run,hf]
      rfl
    have hnone : ∀ r, ¬ ∃ g ∈ some f.close.1, g.Owns r := by
      rintro r ⟨g,hg,hown⟩
      exact close_not_owns f r (Option.some.inj hg ▸ hown)
    obtain ⟨ledger,hexec,hgood⟩ := good_close h hf hnone
    exact ⟨_,step_eq ha hrun hexec,hgood⟩
  | destroy i =>
    obtain ⟨f,hf⟩ := files_of_applies ha
    have hrun : (destroy i).run t = (none,f.close.2) := by
      rw [run,hf]
      rfl
    have hnone : ∀ r, ¬ ∃ g ∈ (none : Option File), g.Owns r := by
      rintro r ⟨g,hg,-⟩
      cases hg
    obtain ⟨ledger,hexec,hgood⟩ := good_close h hf hnone
    exact ⟨_,step_eq ha hrun hexec,hgood⟩

/-! ### What goes wrong otherwise -/

/-- Behind a lawful step the flags are true. -/
theorem of_lawful {a : FileAction} (hlawful : a.Lawful t) (ha : a.Applies t) {f' : Option File}
    {effects : List (Effect FileResource)} {ledger : Ledger FileResource} (hrun : a.run t = (f',effects))
    (hexec : t.ledger.exec effects = some ledger) : Sound ⟨Function.update t.files a.target f',ledger,t.next + 1⟩ := by
  obtain ⟨t',hstep,hsound⟩ := hlawful ha
  rw [step_eq ha hrun hexec] at hstep
  cases hstep
  exact hsound

section sound
variable {f' : Option File} {ledger : Ledger FileResource} {n : ℕ}
  (hsound : Sound ⟨Function.update t.files i f',ledger,n⟩)
include hsound

theorem held_of_update {f : File} (hf : f' = some f) {r : FileResource} (hown : f.Owns r) : r ∈ ledger.held :=
  hsound.owned i r ⟨f,(Function.update_self i f' t.files).trans hf,hown⟩

theorem not_owned_of_update {f : File} (hf : f' = some f) {r : FileResource} (hown : f.Owns r) {j : ℕ} (hj : j ≠ i) :
    ¬ t.Owned j r := by
  rintro ⟨g,hg,hgown⟩
  exact hj (hsound.apart j i r ⟨g,(Function.update_of_ne hj f' t.files).trans hg,hgown⟩
    ⟨f,(Function.update_self i f' t.files).trans hf,hown⟩)

/-- A stream that was open still has an owner. -/
theorem owns_of_update (hkeeps : ∀ r ∈ t.ledger.held, r ∈ ledger.held) (h : t.Good) {a : ℕ} (hown : t.Owned i (.stream a)) :
    ∃ f, f' = some f ∧ f.Owns (.stream a) := by
  obtain ⟨j,g,hg,hgown⟩ := hsound.kept a (hkeeps _ (h.sound.owned i _ hown))
  dsimp only at hg
  by_cases hj : j = i
  · rw [hj,Function.update_self] at hg
    exact ⟨g,hg,hgown⟩
  · rw [Function.update_of_ne hj] at hg
    exact absurd (h.sound.apart j i _ ⟨g,hg,hgown⟩ hown) hj

end sound

theorem meets_createOpen (h : t.Good) {memory : File} (ha : (createOpen i memory m succeeds).Applies t)
    (hlawful : (createOpen i memory m succeeds).Lawful t) : (createOpen i memory m succeeds).Meets t := by
  intro _
  dsimp only
  by_cases hflags : (File.flags m).isSome = true
  · rw [if_pos hflags]
    cases succeeds with
    | true => exact Or.inl rfl
    | false =>
      right
      have hrun : (createOpen i memory m false).run t = (some { memory with
          fname := t.next, fmode := m, alloc := true, fobj := NULL },[.obtain (.name t.next)]) := by
        rw [run,openWith_fails hflags]
        rfl
      have hsound := of_lawful hlawful ha hrun (exec_name h)
      rw [← Bool.not_eq_true]
      intro hopened
      have hnull := held_of_update hsound rfl (r := .stream NULL) ⟨hopened,rfl⟩
      have hold := (Finset.mem_insert.mp hnull).resolve_left FileResource.noConfusion
      exact Nat.lt_irrefl _ (h.held _ hold).1
  · rw [if_neg hflags]
    have hrun : (createOpen i memory m succeeds).run t = (some { memory with errcode := FILE_FLAG },[]) := by
      rw [run,openWith_refused hflags]
      rfl
    have hsound := of_lawful hlawful ha hrun (Ledger.exec_nil _)
    have hnot : ∀ {r}, File.Owns { memory with errcode := FILE_FLAG } r → ∀ j, ¬ t.Owned j r := by
      intro r hown j
      by_cases hj : j = i
      · exact hj ▸ not_owned ha
      · exact not_owned_of_update hsound rfl hown hj
    constructor
    · rw [← Bool.not_eq_true]
      intro hopened
      have hown : File.Owns { memory with errcode := FILE_FLAG } (.stream memory.fobj) := ⟨hopened,rfl⟩
      obtain ⟨j,hj⟩ := h.sound.kept _ (held_of_update hsound rfl hown)
      exact hnot hown j hj
    · intro halloc
      refine or_iff_not_imp_left.mpr (fun hne => ?_)
      have hown : File.Owns { memory with errcode := FILE_FLAG } (.name memory.fname) := ⟨halloc,rfl,hne⟩
      exact ⟨held_of_update hsound rfl hown,hnot hown⟩

theorem meets_open (h : t.Good) (ha : (FileAction.open i m succeeds).Applies t)
    (hlawful : (FileAction.open i m succeeds).Lawful t) : (FileAction.open i m succeeds).Meets t := by
  intro _ hflags f hf
  have hf : t.files i = some f := hf
  rw [← Bool.not_eq_true]
  intro hopened
  have hown : t.Owned i (.stream f.fobj) := (owned_iff hf).mpr ⟨hopened,rfl⟩
  obtain ⟨hnull,hnext⟩ := h.held _ (h.sound.owned i _ hown)
  cases succeeds with
  | true =>
    have hrun : (FileAction.open i m true).run t = (some { f with
        fname := t.next, fmode := m, alloc := true, fobj := t.next, opened := true },
        [.obtain (.name t.next),.obtain (.stream t.next)]) := by
      rw [run,hf,Option.elim_some,openWith_ok hflags]
      rfl
    have hsound := of_lawful hlawful ha hrun (exec_stream h)
    obtain ⟨g,hg,hgown⟩ := owns_of_update hsound
      (fun r hr => Finset.mem_insert_of_mem (Finset.mem_insert_of_mem hr)) h hown
    obtain rfl := Option.some.inj hg
    exact Nat.ne_of_gt hnext hgown.2
  | false =>
    have hrun : (FileAction.open i m false).run t = (some { f with
        fname := t.next, fmode := m, alloc := true, fobj := NULL },[.obtain (.name t.next)]) := by
      rw [run,hf,Option.elim_some,openWith_fails hflags]
      rfl
    have hsound := of_lawful hlawful ha hrun (exec_name h)
    obtain ⟨g,hg,hgown⟩ := owns_of_update hsound (fun r hr => Finset.mem_insert_of_mem hr) h hown
    obtain rfl := Option.some.inj hg
    exact Nat.ne_of_lt hnull hgown.2

theorem lawful_iff (h : t.Good) (a : FileAction) : a.Lawful t ↔ a.Meets t := by
  constructor
  · intro hlawful ha
    cases a with
    | create i => trivial
    | createOpen i memory m succeeds => exact meets_createOpen h ha hlawful ha
    | «open» i m succeeds => exact meets_open h ha hlawful ha
    | close i => trivial
    | destroy i => trivial
  · intro hmeets ha
    obtain ⟨t',hstep,hgood⟩ := good_step h hmeets ha
    exact ⟨t',hstep,hgood.sound⟩

/-- In a run every stream is closed once, by the File that has it, and nothing else is closed or freed,
if and only if a File that is constructed with a name finds no flag set where it is not opened, and no
File is opened that is open. -/
theorem closed_once_iff (acts : List FileAction) :
    Transition.Along step Lawful FileState.initial acts ↔ Transition.Along step Meets FileState.initial acts := by
  refine Transition.along_iff (I := Good) (fun t a h => lawful_iff h a) (fun t a t' h hlawful hstep => ?_) good_initial
  have ha : a.Applies t := by
    by_contra hnot
    rw [step,if_neg hnot] at hstep
    cases hstep
  obtain ⟨t₁,hstep₁,hgood⟩ := good_step h ((lawful_iff h a).mp hlawful) ha
  rw [hstep] at hstep₁
  exact Option.some.inj hstep₁ ▸ hgood

/-- A File that could not be opened closes a null pointer when the memory said that it was open. -/
theorem not_closed_once : ¬ ∀ acts, Transition.Along step Lawful FileState.initial acts := by
  intro h
  have hlawful := h [createOpen 0 ⟨7,7,0,0,true,false⟩ FIO_READ false,destroy 0]
    [createOpen 0 ⟨7,7,0,0,true,false⟩ FIO_READ false] (destroy 0) [] rfl _ rfl
  obtain ⟨t',hstep,-⟩ := hlawful rfl
  cases hstep

end FileAction
end Edelib
