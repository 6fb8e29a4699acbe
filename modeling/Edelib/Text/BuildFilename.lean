import Edelib.Text.Concatenation
import Edelib.Text.Trimming

/-! # Paths are put together

Each part loses the separators that are next to another part, and one separator is put between any
two parts that are given. A part of which nothing is left still has its separator. A first or a
last part of separators only loses all of them, those that it should keep included.
-/
namespace Edelib.Text
open Foundation Blocks

def E_DIR_SEPARATOR : UInt8 := 47

def E_DIR_SEPARATOR_STR : CString := .ofBuf [E_DIR_SEPARATOR]

/-! ## A part -/

def skipLeading (separator : CString) (separatorLen : ℕ) : ℕ → List UInt8 → List UInt8
  | 0,p => p
  | fuel + 1,p =>
    if CString.strncmpBytes p separator.bytes separatorLen = 0 then
      skipLeading separator separatorLen fuel (p.drop separatorLen)
    else p

def skipTrailing (separator : CString) (separatorLen : ℕ) (p : List UInt8) : ℕ → ℕ → ℕ
  | 0,last => last
  | fuel + 1,last =>
    if separatorLen ≤ last ∧ CString.strncmpBytes (p.drop (last - separatorLen)) separator.bytes separatorLen = 0 then
      skipTrailing separator separatorLen p fuel (last - separatorLen)
    else last

def buildPathSegment (separator : CString) (separatorLen : ℕ) (path : CString) (keepLeading keepTrailing : Bool)
    (m : Memory) (ret : StringData) : Except Fault (Memory × StringData) :=
  let p := if separatorLen ≠ 0 ∧ keepLeading = false then skipLeading separator separatorLen path.strlen path.bytes
    else path.bytes
  let last := if separatorLen ≠ 0 ∧ keepTrailing = false then skipTrailing separator separatorLen p p.length p.length
    else p.length
  appendLen m ret (.text p) (sizeType last)

def buildFilename (m : Memory) (p1 : CString) (p2 p3 : Option CString) : Except Fault (Memory × StringData) := do
  let separatorLen := E_DIR_SEPARATOR_STR.strlen
  let keepTrailing := p2.isNone && p3.isNone
  let (m,ret) ← buildPathSegment E_DIR_SEPARATOR_STR separatorLen p1 true keepTrailing m .nullData
  let (m,ret) ← p2.elim (pure (m,ret)) (fun p2 => do
    let (m,ret) ← append m ret (.text E_DIR_SEPARATOR_STR.bytes)
    buildPathSegment E_DIR_SEPARATOR_STR separatorLen p2 false p3.isNone m ret)
  p3.elim (pure (m,ret)) (fun p3 => do
    let (m,ret) ← append m ret (.text E_DIR_SEPARATOR_STR.bytes)
    buildPathSegment E_DIR_SEPARATOR_STR separatorLen p3 false true m ret)

/-! ## What is put together -/

def isSeparator (c : UInt8) : Bool := c == E_DIR_SEPARATOR

def leadingSeparators (path : CString) : List UInt8 := path.bytes.takeWhile isSeparator

def trailingSeparators (path : CString) : List UInt8 := path.bytes.rtakeWhile isSeparator

def inner (path : CString) : List UInt8 := (path.bytes.dropWhile isSeparator).rdropWhile isSeparator

/-- The parts that are given: the first keeps the separators that it begins with, the last those
that it ends with, and one that is alone keeps all. -/
def keptParts (p1 : CString) : Option CString → Option CString → List (List UInt8)
  | none,none => [p1.bytes]
  | some p2,none => [leadingSeparators p1 ++ inner p1,inner p2 ++ trailingSeparators p2]
  | none,some p3 => [leadingSeparators p1 ++ inner p1,inner p3 ++ trailingSeparators p3]
  | some p2,some p3 => [leadingSeparators p1 ++ inner p1,inner p2,inner p3 ++ trailingSeparators p3]

/-- Nothing but separators, which are both at the beginning and at the end. -/
def OnlySeparators (path : CString) : Prop := path.bytes ≠ [] ∧ ∀ c ∈ path.bytes, isSeparator c = true

/-- Where several parts are given, the first and the last are not of separators only. -/
def EndsApart (p1 : CString) (p2 p3 : Option CString) : Prop :=
  ∀ last ∈ p3.or p2, ¬ OnlySeparators p1 ∧ ¬ OnlySeparators last

instance (path : CString) : Decidable (OnlySeparators path) :=
  inferInstanceAs (Decidable (path.bytes ≠ [] ∧ ∀ c ∈ path.bytes, isSeparator c = true))

instance (p1 : CString) (p2 p3 : Option CString) : Decidable (EndsApart p1 p2 p3) :=
  inferInstanceAs (Decidable (∀ last ∈ p3.or p2, ¬ OnlySeparators p1 ∧ ¬ OnlySeparators last))

def trimmed (keepLeading keepTrailing : Bool) (path : CString) : List UInt8 :=
  let p := if keepLeading then path.bytes else path.bytes.dropWhile isSeparator
  if keepTrailing then p else p.rdropWhile isSeparator

def trimmedParts (p1 : CString) (p2 p3 : Option CString) : List (List UInt8) :=
  trimmed true (p2.isNone && p3.isNone) p1 ::
    ((p2.map (trimmed false p3.isNone)).toList ++ (p3.map (trimmed false true)).toList)

def pieceLengths (parts : List (List UInt8)) : List ℕ := (parts.intersperse [E_DIR_SEPARATOR]).map List.length

/-- There is room for each of the pieces, in what is reserved for those before it. -/
def RoomInTurn : ℕ → ℕ → List ℕ → Prop
  | _,_,[] => True
  | len,cap,n :: ns => Fits len cap n ∧ RoomInTurn (len + n) (grownTo len cap n) ns

theorem bytes_of_inner {path : CString} (h : ¬ OnlySeparators path) (hinner : inner path = []) : path.bytes = [] := by
  by_contra hne
  have hrest := List.rdropWhile_eq_nil_iff.mp hinner
  refine h ⟨hne,fun c hc => ?_⟩
  rw [← List.takeWhile_append_dropWhile (p := isSeparator) (l := path.bytes)] at hc
  rcases List.mem_append.mp hc with hc | hc
  · exact List.mem_takeWhile_imp hc
  · exact hrest c hc

theorem trimmed_first {path : CString} (h : ¬ OnlySeparators path) :
    trimmed true false path = leadingSeparators path ++ inner path := by
  have hsplit := Trimming.rdropWhile_append isSeparator (path.bytes.takeWhile isSeparator) (path.bytes.dropWhile isSeparator)
  rw [List.takeWhile_append_dropWhile,← inner] at hsplit
  have htrimmed : trimmed true false path = path.bytes.rdropWhile isSeparator := by simp [trimmed]
  rw [htrimmed]
  by_cases hinner : inner path = []
  · rw [leadingSeparators,hinner,bytes_of_inner h hinner]
    rfl
  · rwa [if_neg hinner] at hsplit

theorem trimmed_last {path : CString} (h : ¬ OnlySeparators path) :
    trimmed false true path = inner path ++ trailingSeparators path := by
  have hsplit : (path.bytes.rdropWhile isSeparator ++ path.bytes.rtakeWhile isSeparator).dropWhile isSeparator = _ :=
    List.dropWhile_append
  rw [List.rdropWhile_append_rtakeWhile,Trimming.dropWhile_rdropWhile,← inner] at hsplit
  have htrimmed : trimmed false true path = path.bytes.dropWhile isSeparator := by simp [trimmed]
  rw [htrimmed]
  by_cases hinner : inner path = []
  · rw [trailingSeparators,hinner,bytes_of_inner h hinner]
    rfl
  · rwa [if_neg (mt List.isEmpty_iff.mp hinner)] at hsplit

/-- The loops keep what is to be kept, except of a first or last part of separators only. -/
theorem trimmedParts_eq {p1 : CString} {p2 p3 : Option CString} (h : EndsApart p1 p2 p3) :
    trimmedParts p1 p2 p3 = keptParts p1 p2 p3 := by
  have hinner : ∀ path, trimmed false false path = inner path := fun path => by simp [trimmed,inner]
  cases p2 with
  | none =>
    cases p3 with
    | none => simp [trimmedParts,keptParts,trimmed]
    | some p3 =>
      obtain ⟨hfirst,hlast⟩ := h p3 rfl
      simp [trimmedParts,keptParts,trimmed_first hfirst,trimmed_last hlast]
  | some p2 =>
    cases p3 with
    | none =>
      obtain ⟨hfirst,hlast⟩ := h p2 rfl
      simp [trimmedParts,keptParts,trimmed_first hfirst,trimmed_last hlast]
    | some p3 =>
      obtain ⟨hfirst,hlast⟩ := h p3 rfl
      simp [trimmedParts,keptParts,trimmed_first hfirst,trimmed_last hlast,hinner]

/-! ## The loops -/

theorem strncmpBytes_separator (c : UInt8) (p : List UInt8) :
    CString.strncmpBytes (c :: p) E_DIR_SEPARATOR_STR.bytes E_DIR_SEPARATOR_STR.strlen = 0 ↔ isSeparator c = true := by
  have hfront : [E_DIR_SEPARATOR] <+: c :: p ↔ isSeparator c = true := by
    rw [List.cons_prefix_cons,and_iff_left List.nil_prefix,isSeparator,beq_iff_eq,eq_comm]
  exact (CString.strncmpBytes_prefix_eq_zero E_DIR_SEPARATOR_STR.nulFree).trans hfront

theorem skipLeading_eq {fuel : ℕ} {p : List UInt8} (h : p.length ≤ fuel) :
    skipLeading E_DIR_SEPARATOR_STR E_DIR_SEPARATOR_STR.strlen fuel p = p.dropWhile isSeparator := by
  induction fuel generalizing p with
  | zero =>
    rw [List.length_eq_zero_iff.mp (Nat.le_zero.mp h)]
    rfl
  | succ fuel ih =>
    cases p with
    | nil => rfl
    | cons c p =>
      rw [List.length_cons] at h
      rw [skipLeading]
      by_cases hc : isSeparator c = true
      · rw [if_pos ((strncmpBytes_separator c p).mpr hc),List.dropWhile_cons_of_pos hc]
        exact ih (Nat.le_of_succ_le_succ h)
      · rw [if_neg (fun h => hc ((strncmpBytes_separator c p).mp h)),List.dropWhile_cons_of_neg hc]

/-- What is before `last` ends with a separator if there is one in front of it. -/
theorem skipTrailing_eq (front back : List UInt8) {fuel : ℕ} (h : front.length ≤ fuel) :
    skipTrailing E_DIR_SEPARATOR_STR E_DIR_SEPARATOR_STR.strlen (front ++ back) fuel front.length =
      (front.rdropWhile isSeparator).length := by
  induction front using List.reverseRecOn generalizing fuel back with
  | nil =>
    cases fuel with
    | zero => rfl
    | succ fuel => exact if_neg (fun h => absurd h.1 (by decide))
  | append_singleton front c ih =>
    rw [List.length_append,List.length_singleton] at h ⊢
    obtain ⟨fuel,rfl⟩ : ∃ n, fuel = n + 1 := ⟨fuel - 1,by omega⟩
    have hone : E_DIR_SEPARATOR_STR.strlen = 1 := rfl
    have hdrop : (front ++ [c] ++ back).drop (front.length + 1 - E_DIR_SEPARATOR_STR.strlen) = c :: back := by
      rw [hone,Nat.add_sub_cancel,List.append_assoc,List.drop_left]
      rfl
    rw [skipTrailing,hdrop]
    by_cases hc : isSeparator c = true
    · rw [if_pos ⟨Nat.le_add_left _ _,(strncmpBytes_separator c back).mpr hc⟩,List.rdropWhile_concat_pos _ _ _ hc,
        List.append_assoc]
      exact ih _ (Nat.le_of_succ_le_succ h)
    · rw [if_neg (fun h => hc ((strncmpBytes_separator c back).mp h.2)),List.rdropWhile_concat_neg _ _ _ hc,
        List.length_append,List.length_singleton]

/-- A segment is the part that is trimmed, up to its length as a 32-bit number. -/
theorem buildPathSegment_eq (path : CString) (keepLeading keepTrailing : Bool) :
    ∃ p, trimmed keepLeading keepTrailing path <+: p ∧
      buildPathSegment E_DIR_SEPARATOR_STR E_DIR_SEPARATOR_STR.strlen path keepLeading keepTrailing =
        fun m ret => appendLen m ret (.text p) (sizeType (trimmed keepLeading keepTrailing path).length) := by
  have hlen : E_DIR_SEPARATOR_STR.strlen ≠ 0 := by decide
  have hlast : ∀ p : List UInt8, skipTrailing E_DIR_SEPARATOR_STR E_DIR_SEPARATOR_STR.strlen p p.length p.length =
      (p.rdropWhile isSeparator).length := by
    intro p
    have h := skipTrailing_eq p [] (Nat.le_refl _)
    rwa [List.append_nil] at h
  have hskip : skipLeading E_DIR_SEPARATOR_STR E_DIR_SEPARATOR_STR.strlen path.strlen path.bytes =
      path.bytes.dropWhile isSeparator := skipLeading_eq (Nat.le_refl _)
  refine ⟨if keepLeading then path.bytes else path.bytes.dropWhile isSeparator,?_,?_⟩
  · cases keepTrailing with
    | true => exact List.prefix_refl _
    | false => exact List.rdropWhile_prefix _ _
  · funext m ret
    rw [buildPathSegment,hskip]
    cases keepLeading <;> cases keepTrailing <;> simp [trimmed,hlen,hlast]

/-! ## The pieces -/

section pieces
variable {m m' : Memory} {d : StringData} {x : List UInt8} {fs : List (Memory → StringData → Except Fault (Memory × StringData))}
  {pieces : List (List UInt8)}

def inTurn : List (Memory → StringData → Except Fault (Memory × StringData)) → Memory → StringData →
    Except Fault (Memory × StringData)
  | [],m,d => pure (m,d)
  | f :: fs,m,d => do
    let (m,d) ← f m d
    inTurn fs m d

theorem inTurn_puts (h : List.Forall₂ (Puts m) pieces fs) (hk : m.Keeps m' (fun _ => False)) (hm : Literal m')
    (hx : Contains m' x d) (hnew : ∀ a, d.Has a → m.fresh ≤ a) :
    (RoomInTurn d.length d.capacity (pieces.map List.length) →
      ∃ r, inTurn fs m' d = .ok r ∧ Contains r.1 (x ++ pieces.flatten) r.2) ∧
    ∀ r, inTurn fs m' d = .ok r → RoomInTurn d.length d.capacity (pieces.map List.length) := by
  induction h generalizing m' d x with
  | nil =>
    rw [List.flatten_nil,List.append_nil]
    exact ⟨fun _ => ⟨(m',d),rfl,hx⟩,fun _ _ => trivial⟩
  | @cons piece f pieces fs hf _ ih =>
    obtain ⟨hput,hinv⟩ := hf m' d x hk hm hx hnew
    -- what is known behind the first piece, where it has been put
    have hnext : ∀ r, f m' d = .ok r → Contains r.1 (x ++ piece) r.2 ∧ Leaves m' d r := by
      intro r hr
      obtain ⟨r',hr',hspec⟩ := hput (hinv r hr).1
      rw [hr] at hr'
      cases hr'
      exact hspec
    have hrest := fun r (hr : f m' d = .ok r) =>
      have hleaves := (hnext r hr).2
      ih (hk.trans hleaves.keeps (fun a ha => Or.inr (hnew a ha))) (hleaves.literal hm hx.buffered) (hnext r hr).1
        (fun a ha => (hleaves.own a ha).elim (hnew a) hk.fresh.trans)
    have hlengths : ∀ r, f m' d = .ok r → RoomInTurn r.2.length r.2.capacity (pieces.map List.length) =
        RoomInTurn (d.length + piece.length) (grownTo d.length d.capacity piece.length) (pieces.map List.length) := by
      intro r hr
      rw [(hnext r hr).1.length_eq,List.length_append,← hx.length_eq,(hinv r hr).2]
    constructor
    · rintro ⟨hfits,hroom⟩
      obtain ⟨r,hr,-⟩ := hput (hasRoom_iff_fits.mpr hfits)
      obtain ⟨r',hr',hx'⟩ := (hrest r hr).1 (hlengths r hr ▸ hroom)
      refine ⟨r',?_,?_⟩
      · rw [inTurn,hr,ok_bind]
        exact hr'
      · rwa [List.flatten_cons,← List.append_assoc]
    · intro r' h
      obtain ⟨r,hr,h⟩ := of_bind_ok h
      exact ⟨hasRoom_iff_fits.mp (hinv r hr).1,hlengths r hr ▸ (hrest r hr).2 r' h⟩

theorem RoomInTurn.lt {len cap : ℕ} {ns : List ℕ} (h : RoomInTurn len cap ns) (hcap : cap < 4294967296) :
    ∀ n ∈ ns, n < 4294967296 := by
  induction ns generalizing len cap with
  | nil => exact fun n hn => absurd hn List.not_mem_nil
  | cons n ns ih =>
    obtain ⟨hfits,hrest⟩ := h
    have hgrown : grownTo len cap n < 4294967296 := by
      rw [grownTo]
      split_ifs
      · exact hcap
      · exact Nat.mod_lt _ (by decide)
    refine List.forall_mem_cons.mpr ⟨?_,ih hrest hgrown⟩
    rw [Fits,sizeType,sizeType] at hfits
    omega

/-- What is reserved is not more than twice as long with each piece. -/
theorem roomInTurn_of_lt {len cap : ℕ} {ns : List ℕ} (hle : len ≤ cap) (h : (cap + ns.sum) * 2 ^ ns.length < 4294967296) :
    RoomInTurn len cap ns := by
  induction ns generalizing len cap with
  | nil => trivial
  | cons n ns ih =>
    rw [List.sum_cons,List.length_cons,Nat.pow_succ] at h
    have hpos : 1 ≤ 2 ^ ns.length := Nat.one_le_two_pow
    have hscaled : (2 * (cap + n) + ns.sum) * 2 ^ ns.length ≤ (cap + (n + ns.sum)) * (2 ^ ns.length * 2) := by
      rw [Nat.mul_comm (2 ^ ns.length) 2,← Nat.mul_assoc]
      exact Nat.mul_le_mul_right _ (by omega)
    have hdoubled : 2 * (cap + n) + ns.sum < 4294967296 :=
      (Nat.le_mul_of_pos_right _ hpos).trans_lt (hscaled.trans_lt h)
    have hgrown : sizeType (sizeType (cap + n) * 2) = 2 * (cap + n) := by
      rw [sizeType,sizeType]
      omega
    have hcap : grownTo len cap n ≤ 2 * (cap + n) ∧ len + n ≤ grownTo len cap n := by
      rw [grownTo]
      split_ifs with hfits <;> omega
    refine ⟨?_,ih hcap.2 (lt_of_le_of_lt (Nat.mul_le_mul_right _ (by omega)) (hscaled.trans_lt h))⟩
    rw [Fits,hgrown]
    omega

/-- A piece, up to its length as a 32-bit number. -/
def cut (piece : List UInt8) : List UInt8 := piece.take (sizeType piece.length)

theorem cut_eq {piece : List UInt8} (h : piece.length < 4294967296) : cut piece = piece := by
  rw [cut,sizeType,Nat.mod_eq_of_lt h,List.take_length]

theorem map_cut_eq (h : ∀ n ∈ pieces.map List.length, n < 4294967296) : pieces.map cut = pieces := by
  have hmap : pieces.map cut = pieces.map id :=
    List.map_congr_left (fun piece hpiece => cut_eq (h _ (List.mem_map_of_mem hpiece)))
  rwa [List.map_id] at hmap

theorem segment_puts (m : Memory) (path : CString) (keepLeading keepTrailing : Bool) :
    Puts m (cut (trimmed keepLeading keepTrailing path))
      (buildPathSegment E_DIR_SEPARATOR_STR E_DIR_SEPARATOR_STR.strlen path keepLeading keepTrailing) := by
  have hcut : (cut (trimmed keepLeading keepTrailing path)).length =
      sizeType (trimmed keepLeading keepTrailing path).length := List.length_take_of_le (Nat.mod_le _ _)
  obtain ⟨p,hp,hsegment⟩ := buildPathSegment_eq path keepLeading keepTrailing
  have hread : ∀ m' : Memory, (Source.text p).read m' (cut (trimmed keepLeading keepTrailing path)).length =
      .ok (cut (trimmed keepLeading keepTrailing path)) := by
    intro m'
    have hle : cut (trimmed keepLeading keepTrailing path) <+: p := (List.take_prefix _ _).trans hp
    have hfront := hle.trans (List.prefix_append p [STERM])
    rw [Source.read,if_pos (hle.length_le.trans (Nat.le_add_right _ 1))]
    exact congrArg _ (List.prefix_iff_eq_take.mp hfront).symm
  have hputs := appendLen_puts (m := m) (fun _ _ _ _ m'' _ => hread m'')
    (fun m' b hb => by rw [← Except.ok.inj ((hread m').symm.trans hb)])
  rwa [hcut,← hsegment] at hputs

end pieces

/-! ## The filename -/

section filename
variable (m : Memory) (p1 : CString) (p2 p3 : Option CString)

def pieces : List (List UInt8) := (trimmedParts p1 p2 p3).intersperse [E_DIR_SEPARATOR]

theorem separator_puts : Puts m (cut [E_DIR_SEPARATOR]) (fun m ret => append m ret (.text E_DIR_SEPARATOR_STR.bytes)) :=
  append_puts m (t := E_DIR_SEPARATOR_STR) (by decide)

theorem buildFilename_inTurn : ∃ fs, List.Forall₂ (Puts m) ((pieces p1 p2 p3).map cut) fs ∧
    ∀ m', buildFilename m' p1 p2 p3 = inTurn fs m' .nullData := by
  have hsegment := segment_puts m
  have hseparator := separator_puts m
  cases p2 with
  | none =>
    cases p3 with
    | none => exact ⟨_,.cons (hsegment p1 true true) .nil,fun m' => by simp [buildFilename,inTurn]⟩
    | some p3 =>
      exact ⟨_,.cons (hsegment p1 true false) (.cons hseparator (.cons (hsegment p3 false true) .nil)),fun m' => by simp [buildFilename,inTurn]⟩
  | some p2 =>
    cases p3 with
    | none =>
      exact ⟨_,.cons (hsegment p1 true false) (.cons hseparator (.cons (hsegment p2 false true) .nil)),fun m' => by simp [buildFilename,inTurn]⟩
    | some p3 =>
      exact ⟨_,.cons (hsegment p1 true false) (.cons hseparator (.cons (hsegment p2 false false)
        (.cons hseparator (.cons (hsegment p3 false true) .nil)))),fun m' => by simp [buildFilename,inTurn]⟩

theorem map_length_pieces : (pieces p1 p2 p3).map List.length = pieceLengths (trimmedParts p1 p2 p3) := rfl

theorem flatten_pieces : (pieces p1 p2 p3).flatten = [E_DIR_SEPARATOR].intercalate (trimmedParts p1 p2 p3) := rfl

theorem content_buildFilename_iff (hm : Literal m) :
    content (buildFilename m p1 p2 p3) = .ok ([E_DIR_SEPARATOR].intercalate (trimmedParts p1 p2 p3)) ↔
      RoomInTurn 0 0 (pieceLengths (trimmedParts p1 p2 p3)) := by
  obtain ⟨fs,hfs,heq⟩ := buildFilename_inTurn m p1 p2 p3
  have hnull : Contains m [] .nullData := rfl
  obtain ⟨hok,hinv⟩ := inTurn_puts hfs (Keeps.refl m _) hm hnull (fun _ => False.elim)
  rw [heq,← map_length_pieces,← flatten_pieces]
  constructor
  · intro h
    obtain ⟨r,hr,hread⟩ := of_bind_ok h
    obtain ⟨r',hr',hx⟩ := hok (hinv r hr)
    rw [hr] at hr'
    cases hr'
    -- what is held is shorter than 2^32, so no piece was cut
    have hlength := Blocks.length_of_read hread
    have hle := hx.length_le
    have hcap := hx.capacity_lt
    have hlen := hx.length_eq
    have hcut : (pieces p1 p2 p3).map cut = pieces p1 p2 p3 := map_cut_eq (fun n hn => by
      obtain ⟨piece,hpiece,rfl⟩ := List.mem_map.mp hn
      have hpiece := (List.sublist_flatten_of_mem hpiece).length_le
      omega)
    have hroom := hinv r hr
    rwa [hcut] at hroom
  · intro h
    have hcut := map_cut_eq (RoomInTurn.lt h (by decide))
    rw [hcut] at hok
    obtain ⟨r,hr,hx⟩ := hok h
    rw [hr]
    exact hx.content_eq

/-- There is room for a filename of up to 2^27 bytes. -/
theorem room_of_short (h : ([E_DIR_SEPARATOR].intercalate (trimmedParts p1 p2 p3)).length < 134217728) :
    RoomInTurn 0 0 (pieceLengths (trimmedParts p1 p2 p3)) := by
  have hsum : (pieceLengths (trimmedParts p1 p2 p3)).sum =
      ([E_DIR_SEPARATOR].intercalate (trimmedParts p1 p2 p3)).length := List.length_flatten.symm
  have hcount : (pieceLengths (trimmedParts p1 p2 p3)).length ≤ 5 := by
    rw [pieceLengths,List.length_map,List.length_intersperse]
    cases p2 <;> cases p3 <;> simp [trimmedParts]
  refine roomInTurn_of_lt (Nat.le_refl _) ?_
  rw [hsum,Nat.zero_add]
  calc _ ≤ ([E_DIR_SEPARATOR].intercalate (trimmedParts p1 p2 p3)).length * 2 ^ 5 :=
        Nat.mul_le_mul_left _ (Nat.pow_le_pow_right (by decide) hcount)
    _ < 4294967296 := by omega

end filename

namespace PublicAction

/-- In every program the filename is the parts that are given, with one separator between any two, if
and only if there is room for them; there is if they are not very long. -/
theorem run_buildFilename_iff (junk : ℕ → ℕ → UInt8) (acts : List PublicAction) (s : StringState)
    (hrun : Transition.exec step (.initial junk) acts = some s) (p1 : CString) (p2 p3 : Option CString)
    (hends : EndsApart p1 p2 p3) :
    let joined := [E_DIR_SEPARATOR].intercalate (keptParts p1 p2 p3)
    (content (buildFilename s.mem p1 p2 p3) = .ok joined ↔ RoomInTurn 0 0 (pieceLengths (keptParts p1 p2 p3))) ∧
      (joined.length < 134217728 → RoomInTurn 0 0 (pieceLengths (keptParts p1 p2 p3))) := by
  rw [← trimmedParts_eq hends]
  exact ⟨content_buildFilename_iff s.mem p1 p2 p3 (run_spec hrun).literal,room_of_short p1 p2 p3⟩

/-- The part in the middle loses the separators on both sides. -/
theorem run_buildFilename_iff_letters :
    content (buildFilename (StringState.initial fun _ _ => 120).mem (.ofBuf [47,97,47]) (some (.ofBuf [47,47,98,47]))
      (some (.ofBuf [99,47]))) = .ok [47,97,47,98,47,99,47] := by
  obtain ⟨hjoined,hroom⟩ := run_buildFilename_iff (fun _ _ => 120) [] _ rfl (.ofBuf [47,97,47]) (some (.ofBuf [47,47,98,47]))
    (some (.ofBuf [99,47])) (by decide)
  exact hjoined.mpr (hroom (by decide))

/-- A part that is empty still has its separator. -/
theorem not_run_buildFilename : ¬ ∀ (junk : ℕ → ℕ → UInt8) (acts : List PublicAction) (s : StringState),
    Transition.exec step (.initial junk) acts = some s → ∀ (p1 : CString) (p2 p3 : Option CString),
      content (buildFilename s.mem p1 p2 p3) =
        .ok ([E_DIR_SEPARATOR].intercalate ((keptParts p1 p2 p3).filter (fun part => !part.isEmpty))) := by
  intro h
  have hjoined := h (fun _ _ => 120) [] _ rfl (.ofBuf [97]) (some .empty) none
  exact absurd hjoined (by decide)

end PublicAction
end Edelib.Text
