import ProxBack.Lib.Shell
import ProxBack.Lib.Url
import ProxBack.Update.Download

/-! The command that installs the helper on a node, and how the node's shell reads it. -/
namespace ProxBack.Deploy
open Lib Text Shell
open Engine (Bytes)

def installPath : String := "/usr/local/bin/proxback-helper"
def defaultSSHPort : Int := 22
def defaultHelperPort : Int := 8007

structure Params where
  address : String
  port : Int
  username : String
  password : String
  expectedFingerprint : String
  binaryPath : String
  serverURL : String
  enrollToken : String
  helperPort : Int
deriving DecidableEq, Repr

def Params.normalize (p : Params) : Except String Params :=
  let q := { p with
    address := trimmed p.address
    username := trimmed p.username
    serverURL := trimmed p.serverURL
    expectedFingerprint := trimmed p.expectedFingerprint }
  if q.address = "" then .error "nodedeploy: address is required"
  else if q.username = "" then .error "nodedeploy: username is required"
  else if q.password = "" then .error "nodedeploy: password is required"
  else if q.binaryPath = "" then .error "nodedeploy: binaryPath is required"
  else if q.serverURL = "" then .error "nodedeploy: serverUrl is required"
  else if q.enrollToken = "" then .error "nodedeploy: enrollToken is required"
  else .ok { q with
    port := if q.port ≤ 0 then defaultSSHPort else q.port
    helperPort := if q.helperPort ≤ 0 then defaultHelperPort else q.helperPort }

def installerCommand (p : Params) : String :=
  installPath ++ " --server " ++ p.serverURL ++ " --token " ++ p.enrollToken ++ " --port " ++
    toString p.helperPort ++ " --install"

def installerArgs (p : Params) : List String :=
  [installPath, "--server", p.serverURL, "--token", p.enrollToken, "--port", toString p.helperPort,
    "--install"]

def validateServerURL (raw : String) : Option String :=
  match Url.parse raw with
  | none => some "serverUrl is not a valid URL"
  | some u =>
    if (u.scheme ≠ "http".toList ∧ u.scheme ≠ "https".toList) ∨ u.host = [] then
      some "serverUrl must be an http:// or https:// URL"
    else none

/-- `NewEnrollToken`, of the random bytes. -/
def newEnrollToken (random : Bytes) : String := String.ofList (Update.hexOf random)

structure Harmless (glob : Word → List (List Char)) (url : String) : Prop where
  chars : ∀ c ∈ url.toList, isSpecial c = false
  names : (Word.bare url.toList).expand glob = [url.toList]

theorem Params.normalize_cases {p q : Params} (h : p.normalize = .ok q) :
    q.serverURL = trimmed p.serverURL ∧ q.serverURL ≠ "" ∧ q.enrollToken = p.enrollToken ∧
      q.enrollToken ≠ "" ∧ 0 < q.helperPort := by
  unfold normalize at h
  dsimp only at h
  split at h
  · cases h
  · split at h
    · cases h
    · split at h
      · cases h
      · split at h
        · cases h
        · split at h
          · cases h
          · split at h
            · cases h
            · rename_i hurl htoken
              cases h
              refine ⟨rfl, hurl, rfl, htoken, ?_⟩
              dsimp only
              split
              · decide
              · omega

/-- Characters that are a letter, a digit or one of these need no quotation and are no pattern. -/
def isSafe (c : Char) : Bool := Url.isLetter c || Url.isDigit c || c ∈ ['-', '/', '.']

theorem not_mem_of_safe {c : Char} (h : isSafe c = true) {chars : List Char}
    (hchars : ∀ d ∈ chars, isSafe d = false) : c ∉ chars := by
  intro hmem
  rw [hchars c hmem] at h
  cases h

theorem not_special_of_safe {c : Char} (h : isSafe c = true) :
    isSpecial c = false ∧ c ∉ ['*', '?', '['] ∧ c ≠ '#' ∧ c ≠ '~' := by
  have hblank : isBlank c = false := decide_eq_false (not_mem_of_safe h (by decide))
  have hop : isOperator c = false := decide_eq_false (not_mem_of_safe h (by decide))
  have hquote : isQuote c = false := decide_eq_false (not_mem_of_safe h (by decide))
  have hexp : isExpansion c = false := decide_eq_false (not_mem_of_safe h (by decide))
  have hends : c ∉ ['#', '~'] := not_mem_of_safe h (by decide)
  refine ⟨?_, not_mem_of_safe h (by decide), fun hc => hends ?_, fun hc => hends ?_⟩
  · rw [isSpecial, hblank, hop, hquote, hexp]
    rfl
  · rw [hc]
    exact List.mem_cons_self
  · rw [hc]
    exact List.mem_cons_of_mem _ List.mem_cons_self

theorem plain_of_safe {s : List Char} (hne : s ≠ []) (h : ∀ c ∈ s, isSafe c = true) : Plain s where
  ne_nil := hne
  chars c hc := (not_special_of_safe (h c hc)).1
  head c hc := (not_special_of_safe (h c (List.mem_of_mem_head? hc))).2.2

@[grind =]
theorem expand_safe (glob : Word → List (List Char)) {s : List Char} (h : ∀ c ∈ s, isSafe c = true) :
    (Word.bare s).expand glob = [s] :=
  expand_bare glob fun c hc => (not_special_of_safe (h c hc)).2.1

theorem safe_token (random : Bytes) : ∀ c ∈ (newEnrollToken random).toList, isSafe c = true := by
  have hdigit : ∀ n < 16, isSafe (Update.hexDigit n) = true := by decide
  intro c hc
  rw [newEnrollToken, String.toList_ofList, Update.hexOf] at hc
  obtain ⟨b, -, hb⟩ := List.mem_flatMap.mp hc
  have hlt : b.toNat < 256 := b.toNat_lt
  simp only [List.mem_cons, List.not_mem_nil, or_false] at hb
  rcases hb with rfl | rfl
  · exact hdigit _ (by omega)
  · exact hdigit _ (by omega)

theorem safe_port {n : Int} (h : 0 < n) : ∀ c ∈ (toString n).toList, isSafe c = true := by
  obtain ⟨m, rfl⟩ := Int.eq_ofNat_of_zero_le h.le
  have htext : (toString (m : Int)).toList = Nat.toDigits 10 m := Nat.toList_repr
  intro c hc
  rw [htext] at hc
  have hdigit : c.isDigit = true := Nat.isDigit_of_mem_toDigits (by decide) (by decide) hc
  have hbounds : 48 ≤ c.val ∧ c.val ≤ 57 := by simpa [Char.isDigit] using hdigit
  have hd : Url.isDigit c = true := decide_eq_true (show '0' ≤ c ∧ c ≤ '9' from hbounds)
  rw [isSafe, hd]
  simp

theorem safe_letter {c : Char} (h : Url.isLetter c = true) : isSafe c = true := by
  rw [isSafe, h]
  rfl

def options (p : Params) : List (List Char) :=
  ["--token".toList, p.enrollToken.toList, "--port".toList, (toString p.helperPort).toList,
    "--install".toList]

def spaced (words : List (List Char)) : List Char := words.flatMap fun w => ' ' :: w

theorem spaced_head (words : List (List Char)) :
    ∀ c ∈ (spaced words).head?, (isBlank c || isOperator c) = true := by
  cases words with
  | nil => exact nofun
  | cons w words =>
    intro c hc
    cases hc
    rfl

@[grind =] theorem simpleCommand_spaced {words : List (List Char)} (h : ∀ w ∈ words, Plain w) :
    simpleCommand (spaced words) = some (words.map Word.bare) := by
  induction words with
  | nil => exact simpleCommand_nil
  | cons w words ih =>
    have hcons : spaced (w :: words) = ' ' :: (w ++ spaced words) := rfl
    rw [hcons, simpleCommand_blank rfl, simpleCommand_word (h w List.mem_cons_self) (spaced_head words),
      ih fun v hv => h v (List.mem_cons_of_mem w hv)]
    rfl

@[grind =] theorem quotes_spaced {words : List (List Char)} (h : ∀ w ∈ words, Plain w) :
    quotes (spaced words) = 0 := by
  rw [quotes, List.countP_eq_zero]
  intro c hc
  obtain ⟨w, hw, hmem⟩ := List.mem_flatMap.mp hc
  rcases List.mem_cons.mp hmem with rfl | hmem
  · decide
  · have hchar := (h w hw).chars c hmem
    unfold isSpecial at hchar
    simp only [Bool.or_eq_false_iff] at hchar
    rw [hchar.1.2]
    nofun

@[grind =] theorem toList_installerCommand (p : Params) : (installerCommand p).toList =
    installPath.toList ++ (' ' :: ("--server".toList ++ (' ' :: (p.serverURL.toList ++
      spaced (options p))))) := by
  simp only [installerCommand, String.toList_append, options, spaced, List.flatMap_cons,
    List.flatMap_nil, List.append_assoc, List.append_nil]
  rfl

theorem simpleCommand_installer (p : Params) : simpleCommand (installerCommand p).toList =
    (simpleCommand (p.serverURL.toList ++ spaced (options p))).map fun ws =>
      Word.bare installPath.toList :: Word.bare "--server".toList :: ws := by
  have hpath : Plain installPath.toList := plain_of_safe (by decide) (by decide)
  have hserver : Plain "--server".toList := plain_of_safe (by decide) (by decide)
  rw [toList_installerCommand, simpleCommand_word hpath (by intro c hc; cases hc; rfl),
    simpleCommand_blank rfl, simpleCommand_word hserver (by intro c hc; cases hc; rfl),
    simpleCommand_blank rfl, Option.map_map]
  rfl

theorem plain_options {p : Params} {random : Bytes} (htoken : p.enrollToken = newEnrollToken random)
    (hne : p.enrollToken ≠ "") (hport : 0 < p.helperPort) :
    ∀ w ∈ options p, w ≠ [] ∧ ∀ c ∈ w, isSafe c = true := by
  intro w hw
  simp only [options, List.mem_cons, List.not_mem_nil, or_false] at hw
  rcases hw with rfl | rfl | rfl | rfl | rfl
  · exact ⟨by decide, by decide⟩
  · refine ⟨fun hnil => hne (String.toList_eq_nil_iff.mp hnil), ?_⟩
    rw [htoken]
    exact safe_token random
  · exact ⟨by decide, by decide⟩
  · refine ⟨fun hnil => ?_, safe_port hport⟩
    obtain ⟨m, hm⟩ := Int.eq_ofNat_of_zero_le hport.le
    have htext : (toString (m : Int)).toList = Nat.toDigits 10 m := Nat.toList_repr
    rw [hm, htext] at hnil
    exact Nat.toDigits_ne_nil hnil
  · exact ⟨by decide, by decide⟩

@[grind =]
theorem isSpace_of_letter {c : Char} (h : Url.isLetter c = true) : isSpace c = false := by
  have hrange : (97 ≤ c.toNat ∧ c.toNat ≤ 122) ∨ (65 ≤ c.toNat ∧ c.toNat ≤ 90) := of_decide_eq_true h
  refine decide_eq_false ?_
  simp only [List.mem_cons, List.not_mem_nil, or_false]
  omega

theorem head_of_valid {raw : String} (h : validateServerURL raw = none) :
    ∀ c ∈ (trimmed raw).toList.head?, Url.isLetter c = true := by
  have hletter : ∃ c ∈ raw.toList.head?, Url.isLetter c = true := by
    unfold validateServerURL at h
    cases hparse : Url.parse raw with
    | none =>
      rw [hparse] at h
      cases h
    | some u =>
      refine Url.parse_letter hparse fun hnil => ?_
      rw [hparse] at h
      dsimp only at h
      rw [if_pos (by rw [hnil]; exact .inl ⟨nofun, nofun⟩)] at h
      cases h
  obtain ⟨c, hc, hc'⟩ := hletter
  obtain ⟨t, ht⟩ : ∃ t, raw.toList = c :: t := List.head?_eq_some_iff.mp hc
  have hdrop : raw.toList.dropWhile isSpace = c :: t := by
    rw [ht, List.dropWhile_cons_of_neg (by rw [isSpace_of_letter hc']; nofun)]
  intro d hd
  rw [trimmed, String.toList_ofList, trimSpace, hdrop] at hd
  obtain ⟨rest, hrest⟩ := List.rdropWhile_prefix isSpace (c :: t)
  obtain ⟨s, hs⟩ := List.head?_eq_some_iff.mp hd
  rw [hs] at hrest
  have hsame : d = c := (List.cons.inj hrest).1
  exact hsame ▸ hc'

/-- The node's shell starts the helper with what it is meant to be told exactly where the URL means
nothing to the shell. -/
theorem installer_told (glob : Word → List (List Char)) {p q : Params} {random : Bytes}
    (hurl : validateServerURL p.serverURL = none) (htoken : p.enrollToken = newEnrollToken random)
    (hnormal : p.normalize = .ok q) :
    Reads glob (installerCommand q) (installerArgs q) ↔ Harmless glob q.serverURL := by
  obtain ⟨hq, hne, htoken', htokenne, hport⟩ := Params.normalize_cases hnormal
  have hletter : ∀ c ∈ q.serverURL.toList.head?, Url.isLetter c = true := by
    rw [hq]
    exact head_of_valid hurl
  have hoptions := plain_options (htoken'.trans htoken) htokenne hport
  have hplain : ∀ w ∈ options q, Plain w := fun w hw =>
    plain_of_safe (hoptions w hw).1 (hoptions w hw).2
  have hnil : q.serverURL.toList ≠ [] := fun h => hne (String.toList_eq_nil_iff.mp h)
  constructor
  · rintro ⟨w, ws, hwords, -, hargs, hstands⟩
    rw [simpleCommand_installer] at hwords
    obtain ⟨vs, hvs, heq⟩ := Option.map_eq_some_iff.mp hwords
    cases heq
    obtain ⟨c, t, hct⟩ := List.exists_cons_of_ne_nil hnil
    have hc := not_special_of_safe (safe_letter (hletter c (by rw [hct]; rfl)))
    rw [hct, List.cons_append, simpleCommand_cons hc.1 hc.2.2, ← List.cons_append, ← hct] at hvs
    obtain ⟨out, hout, hvs⟩ := Option.bind_eq_some_iff.mp hvs
    obtain ⟨us, hus, rfl⟩ := Option.map_eq_some_iff.mp hvs
    have htext : out.1.text = q.serverURL.toList := by
      have hthird := (List.cons.inj (List.cons.inj (List.cons.inj hargs).2).2).1
      rw [← hthird, String.toList_ofList]
    have hchars := plain_of_scanWord (quotes_spaced hplain) hout htext
    have hbare : out.1 = Word.bare q.serverURL.toList := by
      rw [scanWord_bare hchars, scanWord_stop (spaced_head _), Option.map_some, List.append_nil] at hout
      exact congrArg Prod.fst (Option.some.inj hout).symm
    have hword := hstands out.1 (List.mem_cons_of_mem _ (List.mem_cons_of_mem _ List.mem_cons_self))
    rw [htext, hbare] at hword
    exact ⟨hchars, hword⟩
  · intro hharmless
    have hurlplain : Plain q.serverURL.toList :=
      ⟨hnil, hharmless.chars, fun c hc => (not_special_of_safe (safe_letter (hletter c hc))).2.2⟩
    refine ⟨Word.bare installPath.toList, Word.bare "--server".toList ::
      Word.bare q.serverURL.toList :: (options q).map Word.bare, ?_, by decide +kernel, ?_, ?_⟩
    · rw [simpleCommand_installer, simpleCommand_word hurlplain (spaced_head _),
        simpleCommand_spaced hplain]
      rfl
    · simp only [List.map_cons, options, List.map_nil, text_bare, String.ofList_toList, installerArgs]
    · intro v hv
      rcases List.mem_cons.mp hv with rfl | hv
      · rw [text_bare]
        exact expand_safe glob (by decide)
      · rcases List.mem_cons.mp hv with rfl | hv
        · rw [text_bare]
          exact expand_safe glob (by decide)
        · rcases List.mem_cons.mp hv with rfl | hv
          · rw [text_bare]
            exact hharmless.names
          · obtain ⟨w, hw, rfl⟩ := List.mem_map.mp hv
            rw [text_bare]
            exact expand_safe glob (hoptions w hw).2

def deployment (url : String) : Params where
  address := "pve1"
  port := 22
  username := "root"
  password := "secret"
  expectedFingerprint := ""
  binaryPath := "/data/downloads/proxback-helper-linux-amd64"
  serverURL := url
  enrollToken := newEnrollToken (List.replicate 24 0)
  helperPort := 8007

theorem installer_told_plain : Reads (fun _ => []) (installerCommand (deployment "https://pbs.lan:8443"))
    (installerArgs (deployment "https://pbs.lan:8443")) :=
  have htoken : (deployment "https://pbs.lan:8443").enrollToken = newEnrollToken (List.replicate 24 0) := rfl
  (installer_told (fun _ => []) (by decide +kernel) htoken (by decide +kernel)).mpr
    ⟨by decide +kernel, by decide +kernel⟩

/-- A URL that ends the command and begins another. -/
theorem installer_reboots :
    validateServerURL "http://pve/;reboot" = none ∧
      (deployment "http://pve/;reboot").normalize = .ok (deployment "http://pve/;reboot") ∧
      ¬ Reads (fun _ => []) (installerCommand (deployment "http://pve/;reboot"))
        (installerArgs (deployment "http://pve/;reboot")) := by
  refine ⟨by decide +kernel, by decide +kernel, ?_⟩
  rintro ⟨w, ws, hwords, -⟩
  have hnone : simpleCommand (installerCommand (deployment "http://pve/;reboot")).toList = none := by
    decide +kernel
  rw [hnone] at hwords
  cases hwords

end ProxBack.Deploy
