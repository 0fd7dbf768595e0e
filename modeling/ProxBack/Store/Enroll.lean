import ProxBack.Lib.Requests
import ProxBack.Lib.Text
import ProxBack.Store.Helpers
import ProxBack.Store.Stamp
import Mathlib.Data.List.Perm.Subperm

/-! Enrolment: a token lets one agent or one node helper register, of the kind it was made for and
before it expires, and a helper gets the host its token was made for. -/
namespace ProxBack.Store
open Lib

def enrollPurposeAgent : String := "agent"
def enrollPurposeHelper : String := "helper"

def enrollTokenTTL : Int := 24 * 3600 * 10 ^ 9

/-- A row of `enroll_tokens`. -/
structure EnrollToken where
  token : String
  createdAt : List Char
  expiresAt : List Char
  usedAt : Option (List Char)
  purpose : String
  hostID : String

/-- The rows of `enroll_tokens`, under its primary key. -/
structure TokenTable where
  rows : List EnrollToken
  keys : (rows.map EnrollToken.token).Nodup

namespace TokenTable

def empty : TokenTable := ⟨[], List.nodup_nil⟩

def createEnrollToken (t : TokenTable) (now : Int) (token purpose hostID : String) : Option TokenTable :=
  if h : token ∈ t.rows.map EnrollToken.token then none
  else some {
    rows := t.rows ++ [⟨token, fmtTime now, fmtTime (now + enrollTokenTTL), none,
      if purpose = "" then enrollPurposeAgent else purpose, hostID⟩]
    keys := by
      rw [List.map_append, List.nodup_append_comm]
      exact List.nodup_cons.mpr ⟨h, t.keys⟩ }

/-- What the UPDATE of `ConsumeEnrollTokenFor` asks of a row. -/
def usable (now : Int) (token purpose : String) (row : EnrollToken) : Bool :=
  row.token = token ∧ row.purpose = purpose ∧ row.usedAt = none ∧ fmtTime now < row.expiresAt

def use (now : Int) (token purpose : String) (row : EnrollToken) : EnrollToken :=
  if usable now token purpose row then { row with usedAt := some (fmtTime now) } else row

@[grind =] theorem token_use (now : Int) (token purpose : String) (row : EnrollToken) :
    (use now token purpose row).token = row.token := by
  unfold use
  split <;> rfl

def consume (t : TokenTable) (now : Int) (token purpose : String) : TokenTable where
  rows := t.rows.map (use now token purpose)
  keys := by
    rw [List.map_map]
    exact (List.map_congr_left fun row _ => token_use now token purpose row) ▸ t.keys

def enrollTokenByValue (t : TokenTable) (token : String) : Option EnrollToken :=
  t.rows.find? fun row => row.token = token

theorem row_unique (t : TokenTable) {row row' : EnrollToken} (h : row ∈ t.rows) (h' : row' ∈ t.rows)
    (htoken : row.token = row'.token) : row = row' :=
  List.inj_on_of_nodup_map t.keys h h' htoken

end TokenTable

structure AgentApplication where
  token : String
  hostname : String
  os : String
  arch : String
  version : String

structure HelperApplication where
  token : String
  node : String
  port : Int
  version : String
  accessSecret : String
  address : String

namespace Enroll

inductive Applicant where
  | agent (a : AgentApplication)
  | helper (a : HelperApplication)

def Applicant.token : Applicant → String
  | .agent a => a.token
  | .helper a => a.token

def Applicant.purpose : Applicant → String
  | .agent _ => enrollPurposeAgent
  | .helper _ => enrollPurposeHelper

inductive Component where
  | agent (hostname os arch version : String)
  | helper (hostID node address : String) (port : Int) (version accessSecret : String)

def Component.purpose : Component → String
  | .agent .. => enrollPurposeAgent
  | .helper .. => enrollPurposeHelper

def Component.BoundTo (hostID : String) : Component → Prop
  | .agent .. => True
  | .helper own .. => own = hostID ∧ hostID ≠ ""

structure Registration where
  token : String
  consumedAt : Int
  component : Component

structure Shared where
  tokens : TokenTable
  registered : List Registration

inductive Request where
  | agentToken
  | helperToken (hostID : String)
  | register (a : Applicant)

inductive Phase where
  | findHost (hostID : String)
  | insert (purpose hostID : String)
  | consume (a : Applicant)
  | load (a : Applicant) (consumedAt : Int)
  | replace (r : Registration)
  | create (r : Registration)
  | issued (token : Option String)
  | answered (err : Bool)

def begin : Request → Phase
  | .agentToken => .insert enrollPurposeAgent ""
  | .helperToken hostID => if Text.trimmed hostID = "" then .issued none else .findHost (Text.trimmed hostID)
  | .register (.agent a) => if a.token = "" then .answered true else .consume (.agent a)
  | .register (.helper a) =>
    if a.token = "" ∨ Text.trimmed a.node = "" ∨ a.accessSecret = "" then .answered true
    else .consume (.helper a)

def admitted (consumedAt : Int) (row : EnrollToken) : Applicant → Phase
  | .agent a => .create ⟨a.token, consumedAt,
      .agent (if a.hostname = "" then "unknown" else a.hostname) a.os a.arch a.version⟩
  | .helper a =>
    if row.hostID = "" then .answered true
    else .replace ⟨a.token, consumedAt, .helper row.hostID (Text.trimmed a.node) a.address
      (if a.port ≤ 0 then NodeHelper.defaultHelperPort else a.port) a.version a.accessSecret⟩

/-- The time at a statement, how it ends, the token that was drawn, and whether the host was found. -/
structure Access where
  now : Int
  res : Written
  token : String
  found : Bool

def advance (b : Access) (s : Shared) : Phase → Option (Shared × Phase)
  | .findHost hostID => some (s, if b.found then .insert enrollPurposeHelper hostID else .issued none)
  | .insert purpose hostID =>
    some (b.res.outcome s ((s.tokens.createEnrollToken b.now b.token purpose hostID).map fun tokens =>
      ({ s with tokens }, .issued (some b.token))) (.issued none))
  | .consume a =>
    some (b.res.outcome s (some ({ s with tokens := s.tokens.consume b.now a.token a.purpose },
      if s.tokens.rows.any (TokenTable.usable b.now a.token a.purpose) then .load a b.now
      else .answered true)) (.answered true))
  | .load a consumedAt =>
    some (s, match b.res, s.tokens.enrollTokenByValue a.token with
      | .done, some row => admitted consumedAt row a
      | _, _ => .answered true)
  | .replace r => some (s, if b.res = .done then .create r else .answered true)
  | .create r =>
    some (b.res.outcome s (some ({ s with registered := s.registered ++ [r] }, .answered false))
      (.answered true))
  | .issued _ | .answered _ => none

def service : Service Shared Phase Request Access := ⟨begin, advance⟩

def start : Hall Shared Phase := ⟨⟨TokenTable.empty, []⟩, []⟩

/-- The clock, and what it will be in a day, are within the years a timestamp has digits for. -/
def Clocked (_ : Shared) (_ : Phase) (b : Access) : Prop :=
  InYears (b.now / 10 ^ 9) ∧ InYears ((b.now + enrollTokenTTL) / 10 ^ 9)

instance (s : Shared) (q : Phase) (b : Access) : Decidable (Clocked s q b) :=
  inferInstanceAs (Decidable ((_ ∧ _) ∧ _ ∧ _))

variable {s s' : Shared} {q q' : Phase} {b : Access} {w w' : Hall Shared Phase}

def Dated (row : EnrollToken) : Prop :=
  ∃ t, IsStamp row.createdAt t ∧ IsStamp row.expiresAt (t + enrollTokenTTL) ∧
    row.expiresAt = fmtTime (t + enrollTokenTTL)

structure Consumed (s : Shared) (token purpose : String) (consumedAt : Int) (row : EnrollToken) : Prop where
  mem : row ∈ s.tokens.rows
  token_eq : row.token = token
  purpose_eq : row.purpose = purpose
  used : row.usedAt = some (fmtTime consumedAt)
  fresh : consumedAt < parseTime row.createdAt + enrollTokenTTL

def Backed (s : Shared) (r : Registration) : Prop :=
  ∃ row, Consumed s r.token r.component.purpose r.consumedAt row ∧ r.component.BoundTo row.hostID

def Told (s : Shared) : Phase → Prop
  | .load a consumedAt => ∃ row, Consumed s a.token a.purpose consumedAt row
  | .replace r | .create r => Backed s r
  | _ => True

structure Sound (s : Shared) : Prop where
  dated : ∀ row ∈ s.tokens.rows, Dated row
  backed : ∀ r ∈ s.registered, Backed s r

def Keeps (s s' : Shared) : Prop := ∀ row ∈ s.tokens.rows, row.usedAt ≠ none → row ∈ s'.tokens.rows

theorem Keeps.refl (s : Shared) : Keeps s s := fun _ h _ => h

theorem Consumed.keeps {token purpose : String} {consumedAt : Int} {row : EnrollToken}
    (h : Consumed s token purpose consumedAt row) (hkeeps : Keeps s s') :
    Consumed s' token purpose consumedAt row :=
  { h with mem := hkeeps row h.mem (by rw [h.used]; simp) }

theorem Backed.keeps {r : Registration} (h : Backed s r) (hkeeps : Keeps s s') : Backed s' r := by
  obtain ⟨row, hrow, hbound⟩ := h
  exact ⟨row, hrow.keeps hkeeps, hbound⟩

theorem Told.keeps (h : Told s q) (hkeeps : Keeps s s') : Told s' q := by
  cases q with
  | load a consumedAt =>
    obtain ⟨row, hrow⟩ := h
    exact ⟨row, hrow.keeps hkeeps⟩
  | replace r | create r => exact Backed.keeps h hkeeps
  | findHost | insert | consume | issued | answered => trivial

def holds : Phase → List String
  | .load a _ => [a.token]
  | .replace r | .create r => [r.token]
  | _ => []

def Spent (s : Shared) (token : String) : Prop :=
  ∃ row ∈ s.tokens.rows, row.token = token ∧ row.usedAt ≠ none

theorem Consumed.spent {token purpose : String} {consumedAt : Int} {row : EnrollToken}
    (h : Consumed s token purpose consumedAt row) : Spent s token :=
  ⟨row, h.mem, h.token_eq, by rw [h.used]; simp⟩

theorem spent_of_told (h : Told s q) {token : String} (htoken : token ∈ holds q) : Spent s token := by
  cases q with
  | load a consumedAt =>
    obtain ⟨row, hrow⟩ := h
    rw [List.mem_singleton.mp htoken]
    exact hrow.spent
  | replace r | create r =>
    obtain ⟨row, hrow, -⟩ := h
    rw [List.mem_singleton.mp htoken]
    exact hrow.spent
  | findHost | insert | consume | issued | answered => cases htoken

theorem keeps_consume (s : Shared) (now : Int) (token purpose : String) :
    Keeps s { s with tokens := s.tokens.consume now token purpose } := by
  intro row hrow hused
  refine List.mem_map.mpr ⟨row, hrow, ?_⟩
  rw [TokenTable.use, if_neg]
  intro husable
  exact hused (of_decide_eq_true husable).2.2.1

theorem dated_use {now : Int} {token purpose : String} {row : EnrollToken} (h : Dated row) :
    Dated (TokenTable.use now token purpose row) := by
  unfold TokenTable.use
  split <;> exact h

theorem consumed_consume (hs : Sound s) {now : Int} (hnow : InYears (now / 10 ^ 9))
    {token purpose : String} {row : EnrollToken} (hrow : row ∈ s.tokens.rows)
    (husable : TokenTable.usable now token purpose row = true) :
    Consumed { s with tokens := s.tokens.consume now token purpose } token purpose now
      { row with usedAt := some (fmtTime now) } := by
  obtain ⟨htoken, hpurpose, -, hlt⟩ := of_decide_eq_true husable
  obtain ⟨t, hcreated, hexpires, htext⟩ := hs.dated row hrow
  refine ⟨List.mem_map.mpr ⟨row, hrow, if_pos husable⟩, htoken, hpurpose, rfl, ?_⟩
  have hstamp : IsStamp (fmtTime now) now := ⟨hnow, .inl rfl⟩
  rw [htext] at hlt hexpires
  have horder := lt_iff_of_not_continues hstamp hexpires (not_continues_fmtTime hnow hexpires.years)
    (not_continues_fmtTime hexpires.years hnow)
  show now < parseTime row.createdAt + enrollTokenTTL
  rw [hcreated.parseTime_eq]
  exact horder.mp hlt

theorem mem_createEnrollToken {t t' : TokenTable} {now : Int} {token purpose hostID : String}
    (h : t.createEnrollToken now token purpose hostID = some t') {row : EnrollToken} :
    row ∈ t'.rows ↔ row ∈ t.rows ∨ row = ⟨token, fmtTime now, fmtTime (now + enrollTokenTTL), none,
      if purpose = "" then enrollPurposeAgent else purpose, hostID⟩ := by
  unfold TokenTable.createEnrollToken at h
  split at h
  · cases h
  · cases h
    rw [List.mem_append, List.mem_singleton]

theorem Sound.keeps (h : Sound s) (hkeeps : Keeps s s') (hdated : ∀ row ∈ s'.tokens.rows, Dated row)
    (hregistered : s'.registered = s.registered) : Sound s' :=
  ⟨hdated, fun r hr => (h.backed r (hregistered ▸ hr)).keeps hkeeps⟩

/-- What an access does with the tokens: what its request holds after it, it held before, or has
just consumed. -/
inductive Took (s s' : Shared) (q q' : Phase) : Prop where
  | held (h : (s'.registered.map Registration.token ++ holds q').Subperm
      (s.registered.map Registration.token ++ holds q))
  | consumed (token : String) (hregistered : s'.registered = s.registered) (hq : holds q = [])
      (hq' : holds q' = [token]) (hfresh : ¬ Spent s token)

structure Step (s s' : Shared) (q q' : Phase) : Prop where
  sound : Sound s'
  told : Told s' q'
  keeps : Keeps s s'
  took : Took s s' q q'

theorem Step.same (hs : Sound s) (htold : Told s q') (hholds : (holds q').Subperm (holds q)) :
    Step s s q q' :=
  ⟨hs, htold, Keeps.refl s, .held ((List.subperm_append_left _).mpr hholds)⟩

theorem Step.refused (hs : Sound s) (err : Bool) : Step s s q (.answered err) :=
  .same hs trivial List.nil_subperm

theorem told_admitted {a : Applicant} {consumedAt : Int} {row : EnrollToken}
    (h : Consumed s a.token a.purpose consumedAt row) : Told s (admitted consumedAt row a) := by
  cases a with
  | agent a => exact ⟨row, h, trivial⟩
  | helper a =>
    exact iteInduction (motive := Told s) (fun _ => trivial) fun hhost => ⟨row, h, rfl, hhost⟩

theorem holds_admitted (a : Applicant) (consumedAt : Int) (row : EnrollToken) :
    (holds (admitted consumedAt row a)).Subperm [a.token] := by
  cases a with
  | agent a => exact List.Subperm.refl _
  | helper a =>
    exact iteInduction (motive := fun q => (holds q).Subperm [a.token])
      (fun _ => List.nil_subperm) fun _ => List.Subperm.refl _

theorem step_insert (hs : Sound s) {now : Int} (hnow : InYears (now / 10 ^ 9))
    (hlater : InYears ((now + enrollTokenTTL) / 10 ^ 9)) {tokens : TokenTable}
    {token purpose hostID : String}
    (h : s.tokens.createEnrollToken now token purpose hostID = some tokens) (answer : Option String) :
    Step s { s with tokens } (.insert purpose hostID) (.issued answer) := by
  have hkeeps : Keeps s { s with tokens } := fun row hrow _ => (mem_createEnrollToken h).mpr (.inl hrow)
  refine ⟨hs.keeps hkeeps (fun row hrow => ?_) rfl, trivial, hkeeps, .held (List.Subperm.refl _)⟩
  rcases (mem_createEnrollToken h).mp hrow with hrow | rfl
  · exact hs.dated row hrow
  · exact ⟨now, ⟨hnow, .inl rfl⟩, ⟨hlater, .inl rfl⟩, rfl⟩

theorem sound_consume (hs : Sound s) (now : Int) (token purpose : String) :
    Sound { s with tokens := s.tokens.consume now token purpose } := by
  refine hs.keeps (keeps_consume s now token purpose) (fun row hrow => ?_) rfl
  obtain ⟨old, hold, rfl⟩ := List.mem_map.mp hrow
  exact dated_use (hs.dated old hold)

/-- Either a row is there to be consumed, and then no request has consumed it before, or the
request is refused. -/
theorem step_consume (hs : Sound s) {now : Int} (hnow : InYears (now / 10 ^ 9)) (a : Applicant) :
    Step s { s with tokens := s.tokens.consume now a.token a.purpose } (.consume a)
      (if s.tokens.rows.any (TokenTable.usable now a.token a.purpose) then .load a now
        else .answered true) := by
  have hkeeps := keeps_consume s now a.token a.purpose
  have hsound := sound_consume hs now a.token a.purpose
  split
  · rename_i hany
    obtain ⟨row, hrow, husable⟩ := List.any_eq_true.mp hany
    refine ⟨hsound, ⟨_, consumed_consume hs hnow hrow husable⟩, hkeeps, .consumed a.token rfl rfl rfl ?_⟩
    rintro ⟨row', hrow', htoken, hused⟩
    obtain ⟨htoken', -, hunused, -⟩ := of_decide_eq_true husable
    rw [s.tokens.row_unique hrow' hrow (htoken.trans htoken'.symm)] at hused
    exact hused hunused
  · exact ⟨hsound, trivial, hkeeps, .held (List.Subperm.refl _)⟩

theorem step_load (hs : Sound s) {a : Applicant} {consumedAt : Int} (hq : Told s (.load a consumedAt))
    (res : Written) : Step s s (.load a consumedAt)
      (match res, s.tokens.enrollTokenByValue a.token with
        | .done, some row => admitted consumedAt row a
        | _, _ => .answered true) := by
  obtain ⟨row, hrow⟩ := hq
  split
  · rename_i row' hfound
    have hfind : s.tokens.rows.find? (fun row => row.token = a.token) = some row' := hfound
    have htoken : row'.token = a.token :=
      of_decide_eq_true (List.find?_some (p := fun row : EnrollToken => decide (row.token = a.token)) hfind)
    have hsame := s.tokens.row_unique (List.mem_of_find?_eq_some hfind) hrow.mem
      (htoken.trans hrow.token_eq.symm)
    rw [hsame]
    exact .same hs (told_admitted hrow) (holds_admitted a consumedAt row)
  · exact .refused hs true

theorem step_create (hs : Sound s) {r : Registration} (hr : Backed s r) (err : Bool) :
    Step s { s with registered := s.registered ++ [r] } (.create r) (.answered err) := by
  refine ⟨⟨hs.dated, fun r' hr' => ?_⟩, trivial, fun _ hrow _ => hrow, .held ?_⟩
  · rcases List.mem_append.mp hr' with hr' | hr'
    · exact (hs.backed r' hr').keeps fun _ hrow _ => hrow
    · rw [List.mem_singleton.mp hr']
      exact hr.keeps fun _ hrow _ => hrow
  · show ((s.registered ++ [r]).map Registration.token ++ []).Subperm _
    rw [List.map_append, List.append_nil]
    exact List.Subperm.refl _

theorem step_advance (hs : Sound s) (hq : Told s q) (hok : Clocked s q b)
    (hadv : advance b s q = some (s', q')) : Step s s' q q' := by
  cases q with
  | findHost hostID =>
    cases hadv
    split <;> exact .same hs (by exact trivial) List.nil_subperm
  | insert purpose hostID =>
    have herror : Step s s (.insert purpose hostID) (.issued none) :=
      .same hs trivial List.nil_subperm
    refine Written.outcome_spec (R := fun s' q' => Step s s' (.insert purpose hostID) q') herror
      (fun s₁ q₁ heffect => ?_) (Option.some.inj hadv)
    obtain ⟨tokens, htokens, heq⟩ := Option.map_eq_some_iff.mp heffect
    cases heq
    exact ⟨step_insert hs hok.1 hok.2 htokens _, step_insert hs hok.1 hok.2 htokens _⟩
  | consume a =>
    refine Written.outcome_spec (R := fun s' q' => Step s s' (.consume a) q') (.refused hs true) ?_
      (Option.some.inj hadv)
    rintro s₁ q₁ ⟨rfl, rfl⟩
    have hsound := sound_consume hs b.now a.token a.purpose
    exact ⟨step_consume hs hok.1 a,
      hsound, trivial, keeps_consume s b.now a.token a.purpose, .held (List.Subperm.refl _)⟩
  | load a consumedAt =>
    cases hadv
    exact step_load hs hq b.res
  | replace r =>
    cases hadv
    split
    · exact .same hs hq (List.Subperm.refl _)
    · exact .refused hs true
  | create r =>
    refine Written.outcome_spec (R := fun s' q' => Step s s' (.create r) q') (.refused hs true) ?_
      (Option.some.inj hadv)
    rintro s₁ q₁ ⟨rfl, rfl⟩
    exact ⟨step_create hs hq false, step_create hs hq true⟩
  | issued | answered => cases hadv

def claims (w : Hall Shared Phase) : List String :=
  w.shared.registered.map Registration.token ++ w.requests.flatMap holds

structure Inv (w : Hall Shared Phase) : Prop where
  sound : Sound w.shared
  told : ∀ p ∈ w.requests, Told w.shared p
  nodup : (claims w).Nodup

theorem begin_spec (a : Request) (s : Shared) : Told s (begin a) ∧ holds (begin a) = [] := by
  have hboth : ∀ {c : Prop} [Decidable c] {q q' : Phase}, (Told s q ∧ holds q = []) →
      (Told s q' ∧ holds q' = []) → Told s (if c then q else q') ∧ holds (if c then q else q') = [] :=
    fun h h' => iteInduction (motive := fun q => Told s q ∧ holds q = []) (fun _ => h) fun _ => h'
  cases a with
  | agentToken => exact ⟨trivial, rfl⟩
  | helperToken hostID => exact hboth ⟨trivial, rfl⟩ ⟨trivial, rfl⟩
  | register a =>
    cases a with
    | agent a | helper a => exact hboth ⟨trivial, rfl⟩ ⟨trivial, rfl⟩

theorem Inv.spent (h : Inv w) {token : String} (htoken : token ∈ claims w) : Spent w.shared token := by
  rcases List.mem_append.mp htoken with htoken | htoken
  · obtain ⟨r, hr, rfl⟩ := List.mem_map.mp htoken
    obtain ⟨row, hrow, -⟩ := h.sound.backed r hr
    exact hrow.spent
  · obtain ⟨p, hp, htoken⟩ := List.mem_flatMap.mp htoken
    exact spent_of_told (h.told p hp) htoken

theorem Inv.advance {i : Nat} (h : Inv w) (hi : w.requests[i]? = some q) (hstep : Step w.shared s' q q') :
    Inv ⟨s', w.requests.set i q'⟩ := by
  refine ⟨hstep.sound, fun p hp => ?_, ?_⟩
  · rcases List.mem_or_eq_of_mem_set hp with hp | rfl
    · exact (h.told p hp).keeps hstep.keeps
    · exact hstep.told
  · obtain ⟨rest, hbefore, hafter⟩ := flatMap_set_perm hi q' holds
    have hwas : (claims w).Perm (w.shared.registered.map Registration.token ++ (holds q ++ rest)) :=
      hbefore.append_left _
    have hnow : (claims ⟨s', w.requests.set i q'⟩).Perm
        (s'.registered.map Registration.token ++ (holds q' ++ rest)) := hafter.append_left _
    have hnodup := hwas.nodup_iff.mp h.nodup
    refine hnow.nodup_iff.mpr ?_
    rcases hstep.took with hheld | ⟨token, hregistered, hq, hq', hfresh⟩
    · rw [← List.append_assoc] at hnodup ⊢
      obtain ⟨l, hperm, hsub⟩ := (List.subperm_append_right rest).mpr hheld
      exact hperm.nodup_iff.mp (hnodup.sublist hsub)
    · rw [hregistered, hq']
      rw [hq] at hnodup hwas
      refine List.perm_middle.nodup_iff.mpr (List.nodup_cons.mpr ⟨fun hmem => ?_, hnodup⟩)
      exact hfresh (h.spent (hwas.mem_iff.mpr hmem))

theorem inv_of_run {ts : List (Turn Request Access)}
    (h : service.system.Run (Service.Heeding Clocked) start ts w) : Inv w := by
  refine System.Run.invariant (I := Inv) ?_ h
    ⟨⟨List.forall_mem_nil _, List.forall_mem_nil _⟩, List.forall_mem_nil _, List.nodup_nil⟩
  rintro t w w' hinv hok hstep
  rcases Service.step_cases hstep with ⟨a, rfl, rfl⟩ | ⟨i, b, q, s, q', rfl, hq, hadv, rfl⟩
  · obtain ⟨htold, hholds⟩ := begin_spec a w.shared
    refine ⟨hinv.sound, fun p hp => ?_, ?_⟩
    · rcases List.mem_append.mp hp with hp | hp
      · exact hinv.told p hp
      · rw [List.mem_singleton.mp hp]
        exact htold
    · show (_ ++ (w.requests ++ [begin a]).flatMap holds).Nodup
      rw [List.flatMap_append, List.flatMap_singleton, hholds, List.append_nil]
      exact hinv.nodup
  · exact hinv.advance hq (step_advance hinv.sound (hinv.told q (List.mem_of_getElem? hq)) (hok q hq) hadv)

/-- After any run no two agents or helpers have been registered with one token, and each with a
token that was made for its kind, was marked as used at the moment of the registration and had
not lived for a day then; a helper is one of the host the token was made for. -/
theorem enrolled_once {ts : List (Turn Request Access)}
    (h : service.system.Run (Service.Heeding Clocked) start ts w) :
    (w.shared.registered.map Registration.token).Nodup ∧ ∀ r ∈ w.shared.registered,
      ∃ row ∈ w.shared.tokens.rows, row.token = r.token ∧ row.purpose = r.component.purpose ∧
        row.usedAt = some (fmtTime r.consumedAt) ∧
        r.consumedAt < parseTime row.createdAt + enrollTokenTTL ∧ r.component.BoundTo row.hostID := by
  have hinv := inv_of_run h
  refine ⟨(List.nodup_append.mp hinv.nodup).1, fun r hr => ?_⟩
  obtain ⟨row, hrow, hbound⟩ := hinv.sound.backed r hr
  exact ⟨row, hrow.mem, hrow.token_eq, hrow.purpose_eq, hrow.used, hrow.fresh, hbound⟩

def twice : List (Turn Request Access) :=
  let pve1 := Applicant.helper ⟨"t1", " pve1 ", 0, "1.0", "secret", "10.0.0.5"⟩
  [.arrive (.helperToken "host1"), .advance 0 ⟨0, .done, "", true⟩, .advance 0 ⟨1, .done, "t1", true⟩,
    .arrive (.register pve1), .arrive (.register pve1), .advance 1 ⟨2, .done, "", true⟩,
    .advance 2 ⟨3, .done, "", true⟩, .advance 1 ⟨4, .done, "", true⟩, .advance 1 ⟨5, .done, "", true⟩,
    .advance 1 ⟨6, .lost, "", true⟩]

theorem enrolled_once_twice : ∃ w, service.system.Run (Service.Heeding Clocked) start twice w ∧
    w.shared.registered.map Registration.token = ["t1"] ∧
    (w.shared.registered.map Registration.token).Nodup := by
  obtain ⟨w, hfollow, htokens⟩ : ∃ w, service.system.follow twice start = some w ∧
      w.shared.registered.map Registration.token = ["t1"] := ⟨_, rfl, by decide +kernel⟩
  have hrun := System.run_of_trail (p := fun x => decide (Service.Heeding Clocked x.1 x.2))
    (fun _ _ h => of_decide_eq_true h) hfollow (by decide +kernel)
  exact ⟨w, hrun, htokens, (enrolled_once hrun).1⟩

end Enroll

end ProxBack.Store
