import Edelib.DBusExplorer.ScriptCalls

/-! # What scripts send

A call sends the converted arguments. It carries the declared ones where there is no obstacle and the library takes
all of them as they are, and where the first obstacle is reported.
-/
namespace Edelib.DBusExplorer
open Foundation Edbus
open Foundation.Reported (Obstacle Settles)

/-! ## Values that the library takes -/

/-- What the checked library takes is built as it is written. -/
theorem arrives_of_conditions {d : EdbusData} (hs : sendable d = true) (hp : noObjectPath d = true) :
    everywhere arrives d = true := by
  induction d using EdbusData.induct with
  | basic v =>
    cases v with
    | objectPath v => cases hp
    | _ => rfl
  | array lst ih =>
    obtain ⟨-,hsig,hparts⟩ := sendable_array.mp hs
    have hpaths := (everywhere_array.mp hp).2
    refine everywhere_array.mpr ⟨?_,fun d hd => ih d hd (hparts d hd) (hpaths d hd)⟩
    cases lst with
    | nil => rfl
    | cons first rest =>
      rw [arrives,List.all_eq_true]
      intro d hd
      have htypes := List.pairwise_cons.mp (pairwise_types hparts hsig)
      exact beq_iff_eq.mpr (htypes.1 d hd).symm
  | struct lst ih =>
    have hparts := (sendable_struct.mp hs).2
    have hpaths := (everywhere_struct.mp hp).2
    exact everywhere_struct.mpr ⟨rfl,fun d hd => ih d hd (hparts d hd) (hpaths d hd)⟩
  | dict lst ih =>
    obtain ⟨-,hkeys,hsig,hparts⟩ := sendable_dict.mp hs
    have hpaths := (everywhere_dict.mp hp).2
    have htypes : OneType lst := by
      intro e1 he1 e2 he2
      exact entry_types (hparts e2 he2) (hparts e1 he1) (hkeys.basic e2 he2) (hkeys.basic e1 he1)
        ((hsig e2 he2).trans (hsig e1 he1).symm)
    refine everywhere_dict.mpr ⟨?_,fun e he => ?_⟩
    · rw [arrives,decide_eq_true hkeys,decide_eq_true htypes]
      rfl
    · exact ⟨(ih e he).1 (hparts e he).1 (hpaths e he).1,(ih e he).2 (hparts e he).2 (hpaths e he).2⟩
  | variant value ih =>
    exact everywhere_variant.mpr ⟨rfl,ih (sendable_variant.mp hs) (everywhere_variant.mp hp).2⟩

theorem obstacle_of_obstacleIn {lst : List EdbusData} (h : obstacleIn lst = none) : ∀ d ∈ lst, obstacle d = none := by
  induction lst with
  | nil => nofun
  | cons d lst ih =>
    obtain ⟨hd,hlst⟩ := Option.or_eq_none_iff.mp h
    refine List.forall_mem_cons.mpr ⟨?_,ih hlst⟩
    split_ifs at hd
    exact hd

theorem obstacle_of_obstacleInEntries {lst : List EdbusDictEntry} {first : Option (EdbusDataType × EdbusDataType)}
    (h : obstacleInEntries lst first = none) : ∀ e ∈ lst, obstacle e.key = none ∧ obstacle e.value = none := by
  induction lst generalizing first with
  | nil => nofun
  | cons e lst ih =>
    obtain ⟨key,value⟩ := e
    rw [obstacleInEntries] at h
    obtain ⟨hkey,h⟩ := Option.or_eq_none_iff.mp h
    obtain ⟨hvalue,h⟩ := Option.or_eq_none_iff.mp h
    obtain ⟨-,hlst⟩ := Option.or_eq_none_iff.mp h
    exact List.forall_mem_cons.mpr ⟨⟨Option.map_eq_none_iff.mp hkey,Option.map_eq_none_iff.mp hvalue⟩,ih hlst⟩

theorem partCount_of_writable {d : EdbusData} (h : writable d = true) : partCount d < 2 ^ 32 := by
  have hcount : partCount d < 2 ^ 29 := of_decide_eq_true (Bool.and_eq_true_iff.mp h).2
  omega

/-- Where there is no obstacle no list is empty. -/
theorem proper_of_arrives {d : EdbusData} (h : everywhere writable d = true) (ho : obstacle d = none)
    (harrives : everywhere arrives d = true) : proper d = true := by
  induction d using EdbusData.induct with
  | basic v =>
    refine bne_iff_ne.mpr ?_
    rintro rfl
    cases h
  | array lst ih =>
    obtain ⟨hlen,hwritable⟩ := everywhere_array.mp h
    have hparts := (everywhere_array.mp harrives).2
    rw [obstacle] at ho
    split_ifs at ho with hempty
    have hlst := obstacle_of_obstacleIn (Option.map_eq_none_iff.mp ho)
    have hne : lst ≠ [] := mt List.isEmpty_iff.mpr hempty
    exact proper_array.mpr ⟨listSize_ne_zero hne (partCount_of_writable hlen),
      fun d hd => ih d hd (hwritable d hd) (hlst d hd) (hparts d hd)⟩
  | struct lst ih =>
    obtain ⟨hlen,hwritable⟩ := everywhere_struct.mp h
    have hparts := (everywhere_struct.mp harrives).2
    rw [obstacle] at ho
    split_ifs at ho with hempty
    have hlst := obstacle_of_obstacleIn (Option.map_eq_none_iff.mp ho)
    have hne : lst ≠ [] := mt List.isEmpty_iff.mpr hempty
    exact proper_struct.mpr ⟨listSize_ne_zero hne (partCount_of_writable hlen),
      fun d hd => ih d hd (hwritable d hd) (hlst d hd) (hparts d hd)⟩
  | dict lst ih =>
    obtain ⟨hlen,hwritable⟩ := everywhere_dict.mp h
    obtain ⟨hdict,hparts⟩ := everywhere_dict.mp harrives
    rw [obstacle] at ho
    split_ifs at ho with hempty
    have hlst := obstacle_of_obstacleInEntries ho
    rw [arrives,Bool.and_eq_true,decide_eq_true_iff] at hdict
    have hne : lst ≠ [] := mt List.isEmpty_iff.mpr hempty
    refine proper_dict.mpr ⟨dictSize_ne_zero hne (partCount_of_writable hlen),hdict.1,fun e he => ⟨?_,?_⟩⟩
    · exact (ih e he).1 (hwritable e he).1 (hlst e he).1 (hparts e he).1
    · exact (ih e he).2 (hwritable e he).2 (hlst e he).2 (hparts e he).2
  | variant value ih =>
    rw [obstacle] at ho
    exact proper_variant.mpr
      (ih (everywhere_variant.mp h).2 (Option.map_eq_none_iff.mp ho) (everywhere_variant.mp harrives).2)

/-! ## Messages -/

def LibConnection.Posts (conn : LibConnection) (header : Header) : Prop :=
  conn.makes header = true ∧ conn.takes = true

/-- The message was sent with the arguments, and the library holds their values. -/
def Carried (lib : LibDBus) (header : Header) (args : List EdbusData) : Option (Sent lib.toLibDBusCalls) → Prop
  | none => False
  | some sent => sent.header = header ∧ sent.message.content = args ∧
      ∃ msg, sent.message.msg = some msg ∧ lib.Reading (lib.initRead msg.args) (toValues args)

/-- The message is sent, or an error is reported and nothing is sent. -/
def Delivers (lib : LibDBus) (header : Header) (args : List EdbusData) : Reported (Outcome lib.toLibDBusCalls) → Prop
  | .value outcome => Carried lib header args outcome.sent
  | .refused errors => errors ≠ []
  | .aborted => False

section Message
variable {lib : LibDBusCalls} (complain : lib.AppendIter → EdbusData → Option lib.AppendIter)

theorem foldl_append (m : EdbusMessage lib) (content : List EdbusData) :
    content.foldl EdbusMessage.append m = { m with content := m.content ++ content } := by
  induction content generalizing m with
  | nil => rw [List.foldl_nil,List.append_nil]
  | cons d content ih => rw [List.foldl_cons,ih,EdbusMessage.append,List.append_assoc,List.singleton_append]

theorem sendMessage_eq (conn : LibConnection) (header : Header) (content : List EdbusData) :
    sendMessage lib complain conn header content =
      if conn.makes header then
        (toDBusIterElements lib lib.initAppend content).elim .aborted (fun args => .value
          (if conn.takes then some ⟨header,⟨some (some ⟨args,conn.takes,toValues content⟩),content⟩⟩ else none))
      else .aborted := by
  rw [sendMessage,message,foldl_append]
  cases conn.makes header with
  | false => rfl
  | true =>
    change ((((toDBusIterElements lib lib.initAppend content).map _).map _).elim _ _) = _
    cases toDBusIterElements lib lib.initAppend content with
    | none => rfl
    | some args =>
      cases conn.takes with
      | false => rfl
      | true => rfl

end Message

/-- What is sent of a content is the declared arguments if it is these, and any library takes them. -/
theorem carries_sendMessage_iff {conn : LibConnection} {header : Header} {content args : List EdbusData}
    (hproper : content = args → ∀ d ∈ args, proper d = true)
    (returned : ∀ lib : LibDBus, ℕ → Option (Sent lib.toLibDBusCalls) → Option Value) :
    (∀ (lib : LibDBus) (fuel : ℕ) (complain : lib.AppendIter → EdbusData → Option lib.AppendIter),
      Delivers lib header args ((sendMessage lib.toLibDBusCalls complain conn header content).map
        (fun sent => ⟨sent,returned lib fuel sent⟩))) ↔
      content = args ∧ conn.Posts header ∧ ∀ d ∈ args, Conditions d := by
  constructor
  · intro h
    have hchecked := h checked 0 (fun it _ => some it)
    rw [sendMessage_eq] at hchecked
    cases hmakes : conn.makes header with
    | false =>
      rw [hmakes] at hchecked
      exact hchecked.elim
    | true =>
      rw [hmakes,if_pos rfl] at hchecked
      cases hargs : toDBusIterElements checked.toLibDBusCalls checked.initAppend content with
      | none =>
        rw [hargs] at hchecked
        exact hchecked.elim
      | some it =>
        rw [hargs] at hchecked
        cases htakes : conn.takes with
        | false =>
          rw [htakes] at hchecked
          exact hchecked.elim
        | true =>
          rw [htakes] at hchecked
          obtain ⟨-,rfl,_,⟨⟩,hreading⟩ := hchecked
          refine ⟨rfl,⟨hmakes,htakes⟩,fun d hd => ?_⟩
          by_contra hbad
          have hrefused := refused_elements_of_mem hd (toDBusIter_refused (hproper rfl d hd) hbad)
          obtain rfl := hrefused _ it hargs
          have hvalues : [] = toValues content := hreading
          rw [toValues_eq_map] at hvalues
          exact List.ne_nil_of_mem hd (List.map_eq_nil_iff.mp hvalues.symm)
  · rintro ⟨rfl,⟨hmakes,htakes⟩,hall⟩ lib fuel complain
    have helements := toDBusIterElements_eq lib.toLibDBusCalls (fun d hd => toDBusIter_eq lib.toLibDBusCalls
      (hall d hd).sendable (hall d hd).noObjectPath (hall d hd).shortDicts) lib.initAppend
    rw [sendMessage_eq,hmakes,if_pos rfl,helements,htakes]
    exact ⟨rfl,rfl,_,rfl,lib.stores _ (MessageAction.argument_toValues (fun d hd => (hall d hd).sendable))⟩

/-! ## Scripts -/

/-- A call of a script, with the typed values after its strings, or in a list of the signal. -/
inductive Script
  | call (service path interface name : CString)
  | signal (path interface name : CString)
  | signalList (path interface name : CString)

/-- No obstacle is met and the library takes all arguments, or the first obstacle is reported. -/
def CallDelivers (posts : Prop) (args : List EdbusData) : Option Obstacle → Prop
  | none => posts ∧ ∀ d ∈ args, Conditions d
  | some o => o = .reported

namespace Script

def header : Script → Header
  | call service path interface name => .methodCall service path interface name
  | signal path interface name => .signal path interface name
  | signalList path interface name => .signal path interface name

section Run
variable (lib : LibDBusCalls) (fuel : ℕ) (complain : lib.AppendIter → EdbusData → Option lib.AppendIter)

def run (conn : LibConnection) (args : List EdbusData) : Script → Reported (Outcome lib)
  | call service path interface name =>
    dbusCall lib fuel complain conn (.string service) (.string path) (.string interface) (.string name)
      (writeParams args)
  | signal path interface name => scriptBusSignal lib complain conn
      (.pair (.string path) (.pair (.string interface) (.pair (.string name) (writeParams args))))
  | signalList path interface name => scriptBusSignal lib complain conn
      (.pair (.string path) (.pair (.string interface) (.pair (.string name) (.pair (writeParams args) .nil))))

end Run

/-- What meets the claim on a connection: a signal does not read its arguments. -/
def carries (conn : LibConnection) (args : List EdbusData) (script : Script) : Prop :=
  match script with
  | call .. => CallDelivers (conn.Posts script.header) args (obstacleIn args)
  | signal .. => args = [] → conn.Posts script.header
  | signalList .. => args = [] ∧ conn.Posts script.header

end Script

theorem settles_methodArguments {args : List EdbusData} (hcount : args.length < 2 ^ 29) (h : ∀ d ∈ args, Converts d) :
    Settles (fun content => List.Forall₂ Carries args content) (obstacleIn args)
      (methodArguments (if args = [] then .nil else .pair (writeParams args) .nil)) := by
  cases args with
  | nil => exact List.Forall₂.nil
  | cons d args =>
    have hparams :=
      settles_containerParamsFromList (fun msg data => msg ++ [data]) (List.cons_ne_nil d args) hcount h
    have hargs : methodArguments (.pair (writeParams (d :: args)) .nil) =
        containerParamsFromList (fun msg data => msg ++ [data]) (writeParams (d :: args)) [] := rfl
    rw [if_neg (List.cons_ne_nil d args),hargs]
    refine hparams.imp ?_
    rintro content ⟨ds,hds,rfl⟩
    rw [foldl_push (fun _ _ => rfl)]
    exact hds

section Connected
variable {lib : LibDBusCalls} {fuel : ℕ} {complain : lib.AppendIter → EdbusData → Option lib.AppendIter}

theorem dbusCall_connected {conn : LibConnection} (hconn : conn.connected = true)
    (service path interface name : CString) (args : List EdbusData) :
    dbusCall lib fuel complain conn (.string service) (.string path) (.string interface) (.string name)
        (writeParams args) =
      (methodArguments (if args = [] then .nil else .pair (writeParams args) .nil)).bind (fun content =>
        (sendMessage lib complain conn (.methodCall service path interface name) content).map (fun sent =>
          ⟨sent,(if sent.isSome then conn.reply else none).elim (some .F) (replyToScheme lib fuel)⟩)) := by
  have hconn' : ¬ (!conn.connected) = true := by
    rw [hconn]
    exact Bool.false_ne_true
  cases args with
  | nil =>
    have hlen : ¬ listLen (.pair (.string service) (.pair (.string path) (.pair (.string interface)
        (.pair (.string name) .nil)))) < 4 := by
      rw [listLen_of_le (by simp [pairs])]
      simp [pairs]
    rw [dbusCall,if_pos rfl,scriptBusMethodCall,if_neg hconn',if_neg hlen]
    rfl
  | cons d args =>
    have hlen : ¬ listLen (.pair (.string service) (.pair (.string path) (.pair (.string interface)
        (.pair (.string name) (.pair (writeParams (d :: args)) .nil))))) < 4 := by
      rw [listLen_of_le (by simp [pairs])]
      simp [pairs]
    rw [dbusCall,if_neg Value.noConfusion,scriptBusMethodCall,if_neg hconn',if_neg hlen]
    rfl

theorem scriptBusSignal_connected {conn : LibConnection} (hconn : conn.connected = true)
    (path interface name : CString) {rest : Value} (hrest : pairs rest < 2 ^ 31 - 3) :
    scriptBusSignal lib complain conn (.pair (.string path) (.pair (.string interface) (.pair (.string name) rest))) =
      if pairs rest ≤ 1 then
        (sendMessage lib complain conn (.signal path interface name) []).map
          (fun sent => ⟨sent,some (if sent.isSome then .T else .F)⟩)
      else .refused ["Expecting at least 3 and max 4 arguments"] := by
  have hconn' : ¬ (!conn.connected) = true := by
    rw [hconn]
    exact Bool.false_ne_true
  have hlen : listLen (.pair (.string path) (.pair (.string interface) (.pair (.string name) rest))) =
      ((pairs rest + 1 + 1 + 1 : ℕ) : ℤ) := listLen_of_le (by rw [pairs,pairs,pairs]; omega)
  rw [scriptBusSignal,if_neg hconn',hlen]
  by_cases h : pairs rest ≤ 1
  · rw [if_neg (by omega),if_pos h]
    rfl
  · rw [if_pos (by omega),if_neg h]

theorem run_disconnected {conn : LibConnection} (hconn : conn.connected = false) (args : List EdbusData)
    (script : Script) : script.run lib fuel complain conn args = .refused ["Not connected."] := by
  have hnot : (!conn.connected) = true := by
    rw [hconn]
    rfl
  cases script with
  | call service path interface name =>
    rw [Script.run,dbusCall]
    split_ifs <;> rw [scriptBusMethodCall.eq_def,if_pos hnot]
  | signal path interface name => rw [Script.run,scriptBusSignal.eq_def,if_pos hnot]
  | signalList path interface name => rw [Script.run,scriptBusSignal.eq_def,if_pos hnot]

end Connected

/-- A call delivers what its arguments say, up to their first obstacle. -/
theorem call_delivers_iff {conn : LibConnection} (hconn : conn.connected = true)
    (service path interface name : CString) (args : TypedValues) :
    (∀ (lib : LibDBus) (fuel : ℕ) (complain : lib.AppendIter → EdbusData → Option lib.AppendIter),
      Delivers lib (.methodCall service path interface name) args.data (dbusCall lib.toLibDBusCalls fuel complain conn
        (.string service) (.string path) (.string interface) (.string name) (writeParams args.data))) ↔
      CallDelivers (conn.Posts (.methodCall service path interface name)) args.data (obstacleIn args.data) := by
  have hsettles := settles_methodArguments args.counted (fun d hd => converts d (args.typed d hd))
  simp only [dbusCall_connected hconn]
  generalize methodArguments (if args.data = [] then .nil else .pair (writeParams args.data) .nil) = r at hsettles
  cases ho : obstacleIn args.data with
  | none =>
    rw [ho] at hsettles
    cases r with
    | value content =>
      have harrives : content = args.data ↔ ∀ d ∈ args.data, everywhere arrives d = true :=
        forall₂_eq_iff (fun _ _ hd => hd.2) hsettles
      have hproper : content = args.data → ∀ d ∈ args.data, proper d = true := fun hcontent d hd =>
        proper_of_arrives (args.typed d hd) (obstacle_of_obstacleIn ho d hd) (harrives.mp hcontent d hd)
      refine (carries_sendMessage_iff hproper (fun lib fuel sent =>
        (if sent.isSome then conn.reply else none).elim (some .F) (replyToScheme lib.toLibDBusCalls fuel))).trans ?_
      refine and_iff_right_of_imp (fun h => harrives.mpr (fun d hd => ?_))
      exact arrives_of_conditions (h.2 d hd).sendable (h.2 d hd).noObjectPath
    | refused errors => exact hsettles.elim
    | aborted => exact hsettles.elim
  | some o =>
    rw [ho] at hsettles
    cases r with
    | value content => cases o <;> exact hsettles.elim
    | refused errors =>
      cases o with
      | silent => exact iff_of_false (fun h => h checked 0 (fun it _ => some it) hsettles) Obstacle.noConfusion
      | reported => exact iff_of_true (fun _ _ _ => hsettles) rfl
      | fatal => exact hsettles.elim
    | aborted =>
      cases o with
      | silent => exact hsettles.elim
      | reported => exact hsettles.elim
      | fatal => exact iff_of_false (fun h => h checked 0 (fun it _ => some it)) Obstacle.noConfusion

/-- A signal with a fourth argument, or none, is sent without arguments. -/
theorem signal_delivers_iff {conn : LibConnection} (hconn : conn.connected = true) (path interface name : CString)
    (args : List EdbusData) {rest : Value} (hrest : pairs rest ≤ 1) :
    (∀ (lib : LibDBus) (_ : ℕ) (complain : lib.AppendIter → EdbusData → Option lib.AppendIter),
      Delivers lib (.signal path interface name) args (scriptBusSignal lib.toLibDBusCalls complain conn
        (.pair (.string path) (.pair (.string interface) (.pair (.string name) rest))))) ↔
      args = [] ∧ conn.Posts (.signal path interface name) := by
  have hproper : [] = args → ∀ d ∈ args, proper d = true := by
    rintro rfl
    nofun
  have hpairs : pairs rest < 2 ^ 31 - 3 := by omega
  simp only [scriptBusSignal_connected hconn path interface name hpairs,if_pos hrest]
  refine (carries_sendMessage_iff hproper (fun _ _ sent => some (if sent.isSome then .T else .F))).trans ?_
  constructor
  · rintro ⟨hargs,hposts,-⟩
    exact ⟨hargs.symm,hposts⟩
  · rintro ⟨rfl,hposts⟩
    exact ⟨rfl,hposts,nofun⟩

def takesAll : LibConnection where
  connected := true
  makes := fun _ => true
  takes := true
  reply := none

/-- `(dbus-call "a.b" "/a" "a.b" "c" ...)` -/
def callOfC : Script :=
  .call (CString.ofBuf [97,46,98]) (CString.ofBuf [47,97]) (CString.ofBuf [97,46,98]) (CString.ofBuf [99])

def int64Value : TypedValues where
  data := [.basic (.int64 1)]
  typed := by decide
  counted := by decide

/-- Structs with a byte and an integer in one array. -/
def unequalStructs : TypedValues where
  data := [.array [.struct [.basic (.byte 1)],.struct [.basic (.int32 2)]]]
  typed := by decide +kernel
  counted := by decide

end Edelib.DBusExplorer
