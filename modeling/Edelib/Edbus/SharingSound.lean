import Edelib.Edbus.Sharing

/-! # Sharing is sound

What a call changes is its variable, and the container behind it if nothing else refers to
that. Everything else is seen as before, and the counts stay exact.
-/
namespace Edelib.Edbus.Sharing
open Foundation Heap

theorem handleAt_eq_some {s : Store} {loc : ℕ × ℕ} {kind : HandleKind} {a : ℕ} : handleAt s loc = some (kind,a) ↔
    s.read loc = some a ∧ ∃ blk, s.get loc.1 = some blk ∧ blk.payload.holds = some kind := by
  simp only [handleAt,Option.bind_eq_bind,Option.bind_eq_some_iff,Option.some.injEq,Prod.mk.injEq]
  constructor
  · rintro ⟨b,hb,blk,hget,kind',hkind,rfl,rfl⟩
    exact ⟨hb,blk,hget,hkind⟩
  · rintro ⟨ha,blk,hget,hkind⟩
    exact ⟨a,ha,blk,hget,kind,hkind,rfl,rfl⟩

def changed (s : Store) : Option ℕ → Set ℕ
  | none => ∅
  | some x => { a | a = x ∨ s.read (x,0) = some a ∧ s.handles a = 1 }

theorem not_read_pinned {s : Store} (hc : s.Counted []) {x : ℕ} {var : Block Shape} (hget : s.get x = some var)
    (hpinned : var.pinned = true) (loc : ℕ × ℕ) : s.read loc ≠ some x := by
  intro hread
  obtain ⟨blk,hget',hnot⟩ := hc.get_of_read hread
  obtain rfl := Option.some.inj (hget.symm.trans hget')
  exact absurd (hpinned.symm.trans hnot) nofun

theorem not_changed {s : Store} (hc : s.Counted []) {target : Option ℕ}
    (hx : ∀ x, target = some x → ∃ var, s.get x = some var ∧ var.pinned = true) {loc : ℕ × ℕ} {b : ℕ}
    (hloc : ∀ x, target = some x → loc ≠ (x,0)) (hread : s.read loc = some b) : b ∉ changed s target := by
  cases target with
  | none => exact Set.notMem_empty b
  | some x =>
    obtain ⟨var,hget,hpinned⟩ := hx x rfl
    rintro (rfl | ⟨hown,hsole⟩)
    · exact not_read_pinned hc hget hpinned loc hread
    · have htwo := two_le_handles (hloc x rfl) hread hown
      omega

theorem Action.sound_of_later {s s' : Store} {a : Action} (hc : s.Counted [])
    (hx : ∀ x, a.target = some x → ∃ var, s.get x = some var ∧ var.pinned = true) (hc' : s'.Counted [])
    (hl : Later (changed s a.target) s s') : a.Sound s s' where
  counted := hc'
  counts := by
    intro b blk hget hlt
    rw [hc'.refs b blk hget,List.count_nil,Nat.add_zero,BitVec.toNat_ofNat]
    exact Nat.mod_eq_of_lt hlt
  vars := by
    intro x var hget hpinned hne
    have hnot : x ∉ changed s a.target := by
      cases htarget : a.target with
      | none => exact Set.notMem_empty x
      | some y =>
        rintro (rfl | ⟨hread,-⟩)
        · exact hne htarget.symm
        · exact not_read_pinned hc hget hpinned _ hread
    obtain ⟨var',hget'⟩ := hl.pinned x var hget hpinned hnot
    obtain ⟨var₀,hget₀,-,hsame⟩ := hl.kept x var' (get_lt hget) hget'
    obtain rfl := Option.some.inj (hget.symm.trans hget₀)
    exact ⟨var',hget',(hsame hnot).2⟩
  others := by
    intro loc b blk' hloc hread hget' path
    obtain ⟨blk,hget,-⟩ := hc.get_of_read hread
    refine hl.look hc hc' (fun p k d hp hd => ?_) hget hget' (not_changed hc hx hloc hread) path
    refine not_changed hc hx (fun x htarget heq => hp ?_) hd
    obtain ⟨rfl,-⟩ := Prod.mk.inj heq
    rw [htarget]
    exact Or.inl rfl

/-! ## Copying before a change -/

/-- A store in which a variable's container is its own. -/
structure Unhooked (s s' : Store) (x c : ℕ) : Prop where
  counted : s'.Counted []
  grows : Grows {x} s s'
  small : ∀ b, s'.handles b < 4294967296
  read : s'.read (x,0) = some c
  own : c < s.blocks.length → s.read (x,0) = some c ∧ s.handles c = 1

theorem Room.small {s : Store} (hr : Action.Room s) {p : ℕ} {blk : Block Shape} (hget : s.get p = some blk) (b : ℕ) :
    s.handles b < 4294967296 :=
  Nat.lt_of_le_of_lt (Nat.le_add_right _ _) (hr b p blk hget)

theorem ofNat_eq_one {n : ℕ} (hn : n < 4294967296) : BitVec.ofNat 32 n = 1 ↔ n = 1 := by
  rw [← BitVec.toNat_inj,BitVec.toNat_ofNat,Nat.mod_eq_of_lt hn]
  rfl

theorem unhook_spec {s : Store} (hc : s.Counted []) (hr : Action.Room s) {x c : ℕ} (hx : s.read (x,0) = some c) :
    ∃ s' c', unhook s x = some (s',c') ∧ Unhooked s s' x c' := by
  obtain ⟨impl,hget,hnot⟩ := hc.get_of_read hx
  have hsmall := Room.small hr hget
  have hpos := handles_pos_of_read hx
  have hrefs : impl.refs = 1 ↔ s.handles c = 1 := by
    rw [hc.refs c impl hget,List.count_nil,Nat.add_zero]
    exact ofNat_eq_one (hsmall c)
  by_cases hsole : s.handles c = 1
  · refine ⟨s,c,?_,hc,Grows.refl _ s,hsmall,hx,fun _ => ⟨hx,hsole⟩⟩
    simp [unhook,hx,hget,hrefs.mpr hsole]
  · -- shared: what the container holds is copied into a new one
    obtain ⟨s₁,s₁eq,hc₂,hg₂,htotal⟩ := hc.clone hget hnot
    -- the variable is given the new one, and its handle to the old one is dropped
    obtain ⟨var,hgetx,-⟩ := read_eq_some.mp hx
    obtain ⟨var₂,hgetx₂,-⟩ := hg₂.get hgetx (Set.notMem_empty _)
    have hread₂ := (hg₂.toLater.read hgetx hgetx₂ (Set.notMem_empty _) 0).trans hx
    obtain ⟨var₃,hgetx₃,hc₃,hg₃,hhandles₃,-⟩ := hc₂.overwrite hread₂
    dsimp only at hgetx₃ hc₃ hg₃ hhandles₃
    have hne : s.blocks.length ≠ c := (Nat.ne_of_lt (get_lt hget)).symm
    have hmore : 0 < ((s₁.alloc { impl with refs := 1 }).put x
        { var₃ with held := var₃.held.set 0 s.blocks.length }).handles c + ([] : List ℕ).count c := by
      have hcount := hhandles₃ c
      rw [htotal,List.count_singleton_self,List.count_cons_of_ne hne,List.count_nil] at hcount
      omega
    obtain ⟨s₄,s₄eq,hc₄,hg₄,-,hhandles₄⟩ := hc₃.dec hmore
    refine ⟨s₄,s.blocks.length,?_,hc₄,?_,fun b => ?_,?_,fun hlt => absurd hlt (Nat.lt_irrefl _)⟩
    · rw [unhook,hx,Option.bind_eq_bind,Option.bind_some,hget,Option.bind_eq_bind,Option.bind_some,
        if_neg (fun hone => hsole (hrefs.mp hone)),s₁eq,Option.bind_eq_bind,Option.bind_some]
      dsimp only
      rw [hgetx₃,Option.bind_some,s₄eq]
      rfl
    · exact Grows.trans (Grows.trans (Grows.trans (Grows.refl _ s) hg₂ nofun) hg₃ (fun b hb _ => hb)) hg₄ nofun
    · have hcount := hhandles₃ b
      have hroom := hr b c impl hget
      rw [htotal] at hcount
      rw [hhandles₄]
      by_cases hb : b = s.blocks.length
      · subst hb
        have hlen := handles_length hc
        have hle := count_le_handles hget s.blocks.length
        rw [List.count_nil] at hlen
        rw [List.count_singleton_self] at hcount
        omega
      · have hnew : [s.blocks.length].count b = 0 := List.count_eq_zero.mpr (fun h => hb (List.mem_singleton.mp h))
        omega
    · obtain ⟨blk,hgetr,hheld0⟩ := read_eq_some.mp hread₂
      obtain rfl := Option.some.inj (hgetx₃.symm.trans hgetr)
      have hread₃ := read_overwritten (b := s.blocks.length) hgetx₃ (List.getElem?_eq_some_iff.mp hheld0).1
      obtain ⟨var₄,hgetx₄,-⟩ := hg₄.get (get_put_self (get_lt hgetx₃) _) (Set.notMem_empty _)
      exact (hg₄.toLater.read (get_put_self (get_lt hgetx₃) _) hgetx₄ (Set.notMem_empty _) 0).trans hread₃

/-- What is done to a variable's own container changes what the call may change. -/
theorem Unhooked.later {s s' s'' : Store} {x c : ℕ} (hu : Unhooked s s' x c) (hl : Later {c} s' s'') :
    Later (changed s (some x)) s s'' := by
  have hfirst : Later (changed s (some x)) s s' :=
    (Grows.refl _ s).toLater.trans hu.grows.toLater (fun a ha _ => Or.inl ha)
  refine hfirst.trans hl (fun a ha hlt => ?_)
  obtain rfl : a = c := ha
  exact Or.inr (hu.own hlt)

/-- A handle that was there before the copy is there after it. -/
theorem Unhooked.handles_pos {s s' : Store} {x c : ℕ} (hu : Unhooked s s' x c) (hc : s.Counted []) {loc : ℕ × ℕ}
    {b : ℕ} (hread : s.read loc = some b) : 0 < s'.handles b := by
  obtain ⟨blk,hget,hnot⟩ := hc.get_of_read hread
  obtain ⟨blk',hget'⟩ := hu.grows.alive b blk hget
  obtain ⟨blk₀,hget₀,hp,-⟩ := hu.grows.kept b blk' (get_lt hget) hget'
  obtain rfl := Option.some.inj (hget.symm.trans hget₀)
  have hused := hu.counted.used b blk' hget' (hp.trans hnot)
  rwa [List.count_nil,Nat.add_zero] at hused

/-! ## The calls -/

/-- The call returns, the counts are exact, and nothing else is changed. -/
def Lawful (s : Store) (target : Option ℕ) (result : Option Store) : Prop :=
  ∃ s', result = some s' ∧ s'.Counted [] ∧ Later (changed s target) s s'

theorem push_spec {s : Store} (hc : s.Counted []) {c : ℕ} {impl : Block Shape} (hget : s.get c = some impl)
    {new : List ℕ} (hnew : ∀ b ∈ new, 0 < s.handles b) :
    ∃ s', push s c new = some s' ∧ s'.Counted [] ∧ Later {c} s s' := by
  obtain ⟨s₁,impl₁,s₁eq,hget₁,hc₁,hg₁⟩ := hc.extend hget hnew
  refine ⟨_,?_,hc₁,hg₁.toLater⟩
  rw [push,s₁eq,Option.bind_eq_bind,Option.bind_some,hget₁]
  rfl

theorem erase_perm (held : List ℕ) (m n : ℕ) :
    held.Perm (held.take m ++ held.drop (m + n) ++ (held.drop m).take n) :=
  calc held.Perm (held.take m ++ ((held.drop m).take n ++ (held.drop m).drop n)) := by
        rw [List.take_append_drop,List.take_append_drop]
    _ |>.Perm (held.take m ++ ((held.drop m).drop n ++ (held.drop m).take n)) :=
        List.perm_append_comm.append_left (held.take m)
    _ |>.Perm (held.take m ++ held.drop (m + n) ++ (held.drop m).take n) := by
        rw [List.drop_drop,List.append_assoc]

theorem erase_spec {s : Store} (hc : s.Counted []) (hsmall : ∀ b, s.handles b < 4294967296) {c : ℕ}
    {impl : Block Shape} (hget : s.get c = some impl) (n i : ℕ) :
    ∃ s', erase s c n i = some s' ∧ s'.Counted [] ∧ Later {c} s s' := by
  obtain ⟨s',s'eq,hc',hl'⟩ := hc.shrink hsmall hget (erase_perm impl.held (n * i) n)
  refine ⟨s',?_,hc',hl'⟩
  rw [erase,hget]
  exact s'eq

theorem clear_lawful {s : Store} (hc : s.Counted []) (hr : Action.Room s) {x : ℕ} {kind : HandleKind}
    (hx : Action.Var s x kind) : Lawful s (some x) (clear s x) := by
  obtain ⟨⟨c,hx⟩,-⟩ := hx
  obtain ⟨s₁,c₁,s₁eq,hu⟩ := unhook_spec hc hr (handleAt_eq_some.mp hx).1
  obtain ⟨impl,hget,-⟩ := hu.counted.get_of_read hu.read
  have hall : impl.held.Perm ([] ++ impl.held) := List.Perm.refl impl.held
  obtain ⟨s',s'eq,hc',hl'⟩ := hu.counted.shrink hu.small hget hall
  refine ⟨s',?_,hc',hu.later hl'⟩
  rw [clear,s₁eq,Option.bind_eq_bind,Option.bind_some]
  dsimp only
  rw [hget]
  exact s'eq

theorem listAppend_lawful {s : Store} (hc : s.Counted []) (hr : Action.Room s) {x : ℕ} {kind : HandleKind}
    (hx : Action.Var s x kind) {val : ℕ × ℕ} {kindVal : HandleKind} (hval : Action.Handle s val kindVal) :
    Lawful s (some x) (listAppend s x val) := by
  obtain ⟨⟨c,hx⟩,-⟩ := hx
  obtain ⟨v,hval⟩ := hval
  obtain ⟨hv,-⟩ := handleAt_eq_some.mp hval
  simp only [listAppend,hx,hv,Option.bind_eq_bind,Option.bind_some]
  cases htakes : listTakes s (kind = .list true) c v with
  | false => exact ⟨s,rfl,hc,(Grows.refl _ s).toLater⟩
  | true =>
    obtain ⟨s₁,c₁,s₁eq,hu⟩ := unhook_spec hc hr (handleAt_eq_some.mp hx).1
    obtain ⟨impl,hget,-⟩ := hu.counted.get_of_read hu.read
    obtain ⟨s',s'eq,hc',hl'⟩ := push_spec hu.counted hget
      (List.forall_mem_singleton.mpr (hu.handles_pos hc hv))
    refine ⟨s',?_,hc',hu.later hl'⟩
    rw [if_pos rfl,s₁eq]
    exact s'eq

section Search
variable {equal : Store → ℕ × ℕ → ℕ × ℕ → Bool}

theorem remove_lawful {s : Store} (hc : s.Counted []) (hr : Action.Room s) (n : ℕ) {x : ℕ} {kind : HandleKind}
    (hx : Action.Var s x kind) (key : ℕ × ℕ) : Lawful s (some x) (remove s equal n x key) := by
  obtain ⟨⟨c,hx⟩,-⟩ := hx
  obtain ⟨s₁,c₁,s₁eq,hu⟩ := unhook_spec hc hr (handleAt_eq_some.mp hx).1
  obtain ⟨impl,hget,-⟩ := hu.counted.get_of_read hu.read
  rw [remove,s₁eq,Option.bind_eq_bind,Option.bind_some]
  dsimp only
  cases search s₁ equal c₁ n key with
  | none => exact ⟨s₁,rfl,hu.counted,hu.later (Grows.refl _ s₁).toLater⟩
  | some i =>
    obtain ⟨s',s'eq,hc',hl'⟩ := erase_spec hu.counted hu.small hget n i
    exact ⟨s',s'eq,hc',hu.later hl'⟩

theorem search_lt {s : Store} {c n i : ℕ} {key : ℕ × ℕ} (h : search s equal c n key = some i) :
    ∃ impl, s.get c = some impl ∧ i < impl.held.length / n := by
  obtain ⟨impl,hget,hfind⟩ := Option.bind_eq_some_iff.mp h
  exact ⟨impl,hget,List.mem_range.mp (List.mem_of_find?_eq_some hfind)⟩

theorem dictAppend_lawful {s : Store} (hc : s.Counted []) (hr : Action.Room s) {x : ℕ} (hx : Action.Var s x .dict)
    {key value : ℕ × ℕ} (hkey : Action.Handle s key .data) (hvalue : Action.Handle s value .data)
    (hstays : Action.SourceStays equal s (.dictAppend x key value)) :
    Lawful s (some x) (dictAppend s equal x key value) := by
  obtain ⟨⟨c,hx⟩,-⟩ := hx
  obtain ⟨hxread,var,hgetx,hkindx⟩ := handleAt_eq_some.mp hx
  obtain ⟨k,hkey⟩ := hkey
  obtain ⟨hk,-⟩ := handleAt_eq_some.mp hkey
  obtain ⟨v,hvalue⟩ := hvalue
  obtain ⟨hv,blkv,hgetv,hkindv⟩ := handleAt_eq_some.mp hvalue
  simp only [dictAppend,hxread,hk,hv,Option.bind_eq_bind,Option.bind_some]
  cases htakes : dictTakes s c k v with
  | false => exact ⟨s,rfl,hc,(Grows.refl _ s).toLater⟩
  | true =>
    obtain ⟨s₁,c₁,s₁eq,hu⟩ := unhook_spec hc hr hxread
    obtain ⟨impl,hget,-⟩ := hu.counted.get_of_read hu.read
    rw [if_pos rfl,s₁eq,Option.bind_some]
    dsimp only
    cases hsearch : search s₁ equal c₁ 2 key with
    | none =>
      obtain ⟨s',s'eq,hc',hl'⟩ := @push_spec s₁ hu.counted c₁ impl hget [k,v] (by
        simpa using ⟨hu.handles_pos hc hk,hu.handles_pos hc hv⟩)
      exact ⟨s',s'eq,hc',hu.later hl'⟩
    | some i =>
      obtain ⟨impl',hget',hlt⟩ := search_lt hsearch
      obtain ⟨b,hb⟩ : ∃ b, s₁.read (c₁,2 * i + 1) = some b := by
        refine ⟨impl'.held[2 * i + 1],read_eq_some.mpr ⟨impl',hget',List.getElem?_eq_getElem ?_⟩⟩
        omega
      -- the source is not in the variable's block, so the copy left it in its place
      have hne : value.1 ∉ ({x} : Set ℕ) := by
        intro hmem
        obtain rfl : value.1 = x := hmem
        obtain rfl := Option.some.inj (hgetx.symm.trans hgetv)
        exact absurd (hkindx.symm.trans hkindv) nofun
      obtain ⟨blkv',hgetv'⟩ := hu.grows.alive _ blkv hgetv
      have hread := (hu.grows.toLater.read hgetv hgetv' hne value.2).trans hv
      obtain ⟨s',s'eq,hc',hl',-⟩ := hu.counted.assign hu.small hb hread
        (hstays c k v hxread hk hv htakes s₁ c₁ i s₁eq hsearch)
      exact ⟨s',s'eq,hc',hu.later hl'⟩

end Search

theorem assign_lawful {s : Store} (hc : s.Counted []) (hr : Action.Room s) {x : ℕ} {kindX kind : HandleKind}
    (hx : Action.Var s x kindX) {src : ℕ × ℕ} (hsrc : Action.Handle s src kind)
    (hclass : kindX.sameClass kind = true) (hstays : s.Reaches (x,0) src.1) :
    Lawful s (some x) (assign s x src) := by
  obtain ⟨⟨a,hx⟩,var,hgetx,hpinned⟩ := hx
  obtain ⟨b,hsrc⟩ := hsrc
  obtain ⟨ha,-⟩ := handleAt_eq_some.mp hx
  obtain ⟨hb,-⟩ := handleAt_eq_some.mp hsrc
  obtain ⟨s₁,s₁eq,hc₁,hl₁,hsurvives⟩ := hc.assign (Room.small hr hgetx) ha hb hstays
  -- the variable itself is not freed
  obtain ⟨var₁,hgetx₁⟩ := hsurvives x (Reaches.var hgetx hpinned)
  have hg₂ : Grows {x} s₁ (s₁.put x { var₁ with payload := kind.var }) :=
    grows_put hgetx₁ rfl (fun hX => absurd rfl hX)
  refine ⟨s₁.put x { var₁ with payload := kind.var },?_,hc₁.exchange hgetx₁ rfl rfl (List.Perm.refl _),?_⟩
  · simp only [assign,hx,hsrc,Option.bind_eq_bind,Option.bind_some,hclass,if_pos,s₁eq,hgetx₁]
  · have hfirst := (Grows.refl (changed s (some x)) s).toLater.trans hl₁ (fun c hc _ => Or.inl hc)
    exact hfirst.trans hg₂.toLater (fun c hc _ => Or.inl hc)

theorem destroy_lawful {s : Store} (hc : s.Counted []) (hr : Action.Room s) {x : ℕ} {var : Block Shape}
    (hget : s.get x = some var) (hpinned : var.pinned = true) :
    Lawful s (some x) ((s.free x).release var.held) := by
  have hzero := hc.not_pinned hget hpinned
  have hc₁ := hc.free hget hzero (fun _ _ => rfl)
  rw [List.append_nil] at hc₁
  have hsmall : Small (s.free x) var.held := by
    intro b
    have hfree := handles_free hget b
    have hb := Room.small hr hget b
    omega
  obtain ⟨s',s'eq,hc',hl'⟩ := hc₁.release hsmall
  have hl : Later (changed s (some x)) s (s.free x) := later_free hget (fun _ => Or.inl rfl)
  exact ⟨s',s'eq,hc',hl.trans hl' nofun⟩

theorem newVar_spec {s : Store} {a : ℕ} (hc : s.Counted [a]) (kind : HandleKind) :
    (newVar s kind a).Counted [] ∧ Grows ∅ s (newVar s kind a) := by
  refine ⟨?_,grows_alloc s _⟩
  exact @Counted.alloc _ s [a] [] [] hc { payload := kind.var, pinned := true, held := [a], refs := 0 }
    (List.Perm.refl _) (Or.inr ⟨rfl,rfl,rfl⟩)

theorem construct_spec {s : Store} {held : List ℕ} (hc : s.Counted held) (shape : Shape) (kind : HandleKind) :
    (construct s shape held kind).Counted [] ∧ Grows ∅ s (construct s shape held kind) := by
  have hc₁ := @Counted.alloc _ s held [] [s.blocks.length] hc { payload := shape, pinned := false, held, refs := 1 }
    (by simp) (Or.inl ⟨rfl,rfl,rfl⟩)
  obtain ⟨hc₂,hg₂⟩ := newVar_spec hc₁ kind
  exact ⟨hc₂,(grows_alloc s _).trans hg₂ nofun⟩

namespace Action
variable (equal : Store → ℕ × ℕ → ℕ × ℕ → Bool)

theorem step_lawful {s : Store} {a : Action} (hc : s.Counted []) (hlegal : a.Legal s) (hr : Room s)
    (hstays : a.SourceStays equal s) : Lawful s a.target (a.step equal s) := by
  have hconstruct : ∀ shape kind, Lawful s none (some (construct s shape [] kind)) := by
    intro shape kind
    obtain ⟨hc',hg⟩ := construct_spec hc shape kind
    exact ⟨_,rfl,hc',hg.toLater⟩
  cases a with
  | data v => exact hconstruct _ _
  | list arrayMode => exact hconstruct _ _
  | dict => exact hconstruct _ _
  | copy src =>
    obtain ⟨kind,a,hsrc⟩ := hlegal
    obtain ⟨s₁,s₁eq,hc₁,hg₁,-,-⟩ := hc.inc (Nat.add_pos_left (handles_pos_of_read (handleAt_eq_some.mp hsrc).1) _)
    obtain ⟨hc₂,hg₂⟩ := newVar_spec hc₁ kind
    refine ⟨_,?_,hc₂,(hg₁.trans hg₂ nofun).toLater⟩
    simp only [step,hsrc,Option.bind_eq_bind,Option.bind_some,s₁eq]
  | wrap src =>
    obtain ⟨kind,a,hsrc⟩ := hlegal
    obtain ⟨s₁,s₁eq,hc₁,hg₁,-,-⟩ := hc.inc (Nat.add_pos_left (handles_pos_of_read (handleAt_eq_some.mp hsrc).1) _)
    obtain ⟨hc₂,hg₂⟩ := construct_spec hc₁ kind.wrapped .data
    refine ⟨_,?_,hc₂,(hg₁.trans hg₂ nofun).toLater⟩
    simp only [step,hsrc,Option.bind_eq_bind,Option.bind_some,s₁eq]
  | assign x src =>
    obtain ⟨kindX,kind,hx,hsrc,hclass⟩ := hlegal
    exact assign_lawful hc hr hx hsrc hclass hstays
  | destroy x =>
    obtain ⟨kind,-,var,hget,hpinned⟩ := hlegal
    have hstep : (destroy x).step equal s = (s.free x).release var.held := by
      simp only [step,hget,Option.bind_eq_bind,Option.bind_some,hpinned,if_pos]
    rw [hstep]
    exact destroy_lawful hc hr hget hpinned
  | listAppend x val =>
    obtain ⟨⟨arrayMode,hx⟩,hval⟩ := hlegal
    exact listAppend_lawful hc hr hx hval
  | listRemove x val =>
    obtain ⟨⟨arrayMode,hx⟩,-⟩ := hlegal
    exact remove_lawful hc hr 1 hx val
  | dictAppend x key value =>
    obtain ⟨hx,hkey,hvalue⟩ := hlegal
    exact dictAppend_lawful hc hr hx hkey hvalue hstays
  | dictRemove x key => exact remove_lawful hc hr 2 hlegal.1 key
  | clear x =>
    obtain ⟨kind,hx,-⟩ := hlegal
    exact clear_lawful hc hr hx

theorem Legal.target {s : Store} {a : Action} (hlegal : a.Legal s) {x : ℕ} (hx : a.target = some x) :
    ∃ var, s.get x = some var ∧ var.pinned = true := by
  cases a <;> cases hx
  case assign =>
    obtain ⟨_,_,⟨-,hvar⟩,-⟩ := hlegal
    exact hvar
  case destroy =>
    obtain ⟨_,-,hvar⟩ := hlegal
    exact hvar
  case listAppend =>
    obtain ⟨⟨_,-,hvar⟩,-⟩ := hlegal
    exact hvar
  case listRemove =>
    obtain ⟨⟨_,-,hvar⟩,-⟩ := hlegal
    exact hvar
  case dictAppend =>
    obtain ⟨⟨-,hvar⟩,-⟩ := hlegal
    exact hvar
  case dictRemove =>
    obtain ⟨⟨-,hvar⟩,-⟩ := hlegal
    exact hvar
  case clear =>
    obtain ⟨_,⟨-,hvar⟩,-⟩ := hlegal
    exact hvar

structure Allowed (s : Store) (a : Action) : Prop where
  legal : a.Legal s
  room : Room s
  stays : a.SourceStays equal s

theorem step_sound {s : Store} {a : Action} (hc : s.Counted []) (ha : Allowed equal s a) :
    ∃ s', a.step equal s = some s' ∧ a.Sound s s' := by
  obtain ⟨s',s'eq,hc',hl⟩ := step_lawful equal hc ha.legal ha.room ha.stays
  exact ⟨s',s'eq,sound_of_later hc (fun _ hx => ha.legal.target hx) hc' hl⟩

/-- In every run of allowed calls each call is sound. -/
theorem run_sound (acts : List Action)
    (h : Transition.Along (step equal) (Allowed equal) empty acts) :
    Transition.Along (step equal) (fun s a => ∃ s', a.step equal s = some s' ∧ a.Sound s s') empty acts := by
  refine Transition.Along.imp (I := fun s => s.Counted []) (fun s a hc ha => step_sound equal hc ha) ?_
    counted_empty h
  intro s a s' hc ha hstep
  obtain ⟨s'',hstep',hsound⟩ := step_sound equal hc ha
  obtain rfl := Option.some.inj (hstep.symm.trans hstep')
  exact hsound.counted

/-! ## An element assigned to what holds it -/

theorem room_of_size {s : Store} (h : 2 * s.size < 4294967296) : Room s := by
  intro a p blk hget
  have hle : s.handles a ≤ s.size := handles_le_size s a
  have hcount := count_le_handles hget a
  omega

theorem reaches_var {s : Store} {except : ℕ × ℕ} {x : ℕ} (h : (s.get x).map Block.pinned = some true) :
    s.Reaches except x := by
  obtain ⟨var,hget,hpinned⟩ := Option.map_eq_some_iff.mp h
  exact Reaches.var hget hpinned

/-- An element of a list that is shared and then changed is assigned to a variable. -/
def changeShared : List Action :=
  [list true,data (.byte 7),copy (1,0),listAppend 1 (3,0),assign 3 (5,0)]

/-- An array is kept by a variable alone, and its element is assigned to that variable. -/
def heldInside : List Action :=
  [list true,data (.byte 7),listAppend 1 (3,0),wrap (1,0),destroy 1,destroy 3,assign 5 (0,0)]

def neverEqual : Store → ℕ × ℕ → ℕ × ℕ → Bool := fun _ _ _ => false

theorem run_sound_changeShared : Transition.Along (step neverEqual)
    (fun s a => ∃ s', a.step neverEqual s = some s' ∧ a.Sound s s') empty changeShared := by
  refine run_sound neverEqual changeShared ?_
  refine Transition.along_cons.mpr ⟨⟨trivial,room_of_size (by decide +kernel),trivial⟩,?_⟩
  rintro s₁ ⟨⟩
  refine Transition.along_cons.mpr ⟨⟨trivial,room_of_size (by decide +kernel),trivial⟩,?_⟩
  rintro s₂ ⟨⟩
  refine Transition.along_cons.mpr ⟨⟨⟨.list true,0,rfl⟩,room_of_size (by decide +kernel),trivial⟩,?_⟩
  rintro s₃ ⟨⟩
  refine Transition.along_cons.mpr
    ⟨⟨⟨⟨true,⟨0,rfl⟩,_,rfl,rfl⟩,2,rfl⟩,room_of_size (by decide +kernel),trivial⟩,?_⟩
  rintro s₄ ⟨⟩
  refine Transition.along_cons.mpr
    ⟨⟨⟨.data,.data,⟨⟨2,rfl⟩,_,rfl,rfl⟩,⟨2,rfl⟩,rfl⟩,room_of_size (by decide +kernel),?_⟩,?_⟩
  · refine Reaches.held ?_ ((by decide) : (1,0) ≠ (3,0)) rfl
    exact reaches_var rfl
  · intro s₅ _
    exact Transition.along_nil _ _

/-- Each call is one that a program can make, and the last one looks at an element that is
freed with its container. -/
theorem not_run_sound : Transition.Along (step neverEqual) (fun s a => a.Legal s ∧ Room s) empty heldInside ∧
    ¬ Transition.Along (step neverEqual) (fun s a => ∃ s', a.step neverEqual s = some s' ∧ a.Sound s s')
      empty heldInside := by
  constructor
  · refine Transition.along_cons.mpr ⟨⟨trivial,room_of_size (by decide +kernel)⟩,?_⟩
    rintro s₁ ⟨⟩
    refine Transition.along_cons.mpr ⟨⟨trivial,room_of_size (by decide +kernel)⟩,?_⟩
    rintro s₂ ⟨⟩
    refine Transition.along_cons.mpr ⟨⟨⟨⟨true,⟨0,rfl⟩,_,rfl,rfl⟩,2,rfl⟩,room_of_size (by decide +kernel)⟩,?_⟩
    rintro s₃ ⟨⟩
    refine Transition.along_cons.mpr ⟨⟨⟨.list true,0,rfl⟩,room_of_size (by decide +kernel)⟩,?_⟩
    rintro s₄ ⟨⟩
    refine Transition.along_cons.mpr ⟨⟨⟨.list true,⟨0,rfl⟩,_,rfl,rfl⟩,room_of_size (by decide +kernel)⟩,?_⟩
    rintro s₅ ⟨⟩
    refine Transition.along_cons.mpr ⟨⟨⟨.data,⟨2,rfl⟩,_,rfl,rfl⟩,room_of_size (by decide +kernel)⟩,?_⟩
    rintro s₆ ⟨⟩
    refine Transition.along_cons.mpr ⟨⟨⟨.data,.data,⟨⟨4,rfl⟩,_,rfl,rfl⟩,⟨2,rfl⟩,rfl⟩,
      room_of_size (by decide +kernel)⟩,?_⟩
    intro s₇ _
    exact Transition.along_nil _ _
  · intro h
    obtain ⟨s,hs⟩ := h.exec (fun _ _ hC => hC.imp (fun _ hs' => hs'.1))
    have hnone : (Transition.exec (step neverEqual) empty heldInside).isNone = true := by decide +kernel
    rw [hs] at hnone
    cases hnone

end Action
end Edelib.Edbus.Sharing
