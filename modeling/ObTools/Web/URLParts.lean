import ObTools.Lib.Delimiter
import ObTools.Web.URL

/-!
This module contains the proof of which URLs are split into what they have been composed of, and put together again.
-/

namespace ObTools
namespace Web
namespace URL

-- The characters of RFC 3986

def isAlphanumeric (c : UInt8) : Bool := (48 ≤ c ∧ c ≤ 57) || (65 ≤ c ∧ c ≤ 90) || (97 ≤ c ∧ c ≤ 122)

-- `+-.`
def isSchemeChar (c : UInt8) : Bool := isAlphanumeric c || c ∈ [43, 45, 46]

-- Unreserved ones, `%` and the delimiters of parts: `-._~%!$&'()*+,;=`
def isNameChar (c : UInt8) : Bool :=
  isAlphanumeric c || c ∈ [45, 46, 95, 126, 37, 33, 36, 38, 39, 40, 41, 42, 43, 44, 59, 61]

-- `:/@`
def isPathChar (c : UInt8) : Bool := isNameChar c || c ∈ [58, 47, 64]

-- `?`
def isQueryChar (c : UInt8) : Bool := isPathChar c || c = 63

structure Authority where
  user : Option (List UInt8 × Option (List UInt8))
  host : List UInt8
  port : Option (List UInt8)
deriving DecidableEq, Repr

structure Components where
  scheme : List UInt8
  authority : Option Authority
  path : List UInt8
  query : Option (List UInt8)
  fragment : Option (List UInt8)
deriving DecidableEq, Repr

-- A separator and what is behind it, if it is there
def separated (c : UInt8) : Option (List UInt8) → List UInt8
  | some text => c :: text
  | none => []

def Authority.login (a : Authority) : List UInt8 :=
  match a.user with
  | some (user, password) => user ++ separated 58 password ++ [64]
  | none => []

def Authority.text (a : Authority) : List UInt8 := a.login ++ a.host ++ separated 58 a.port

-- What is behind the host, or behind the scheme if there is none
def Components.rest (m : Components) : List UInt8 := m.path ++ separated 63 m.query ++ separated 35 m.fragment

def Components.text (m : Components) : List UInt8 :=
  m.scheme ++ [58]
    ++ (match m.authority with
      | some a => [47, 47] ++ a.text
      | none => [])
    ++ m.rest

-- A name, or an address in brackets
def IsHost (host : List UInt8) : Prop :=
  (∀ c ∈ host, isNameChar c = true)
    ∨ ∃ address, host = [91] ++ address ++ [93] ∧ ∀ c ∈ address, isNameChar c = true ∨ c = 58

-- What is not empty, and has the right characters
def IsText (p : UInt8 → Bool) (text : List UInt8) : Prop := text ≠ [] ∧ ∀ c ∈ text, p c = true

structure Authority.WellFormed (a : Authority) : Prop where
  user : ∀ user password, a.user = some (user, password) →
    IsText isNameChar user ∧ ∀ p, password = some p → IsText (fun c => isNameChar c || c = 58) p
  host : IsHost a.host
  port : ∀ port, a.port = some port → IsText (fun c => 48 ≤ c ∧ c ≤ 57) port

structure Components.WellFormed (m : Components) : Prop where
  scheme : IsText isSchemeChar m.scheme
  authority : ∀ a, m.authority = some a → a.WellFormed
  path_head : m.path = [] ∨ m.path.head? = some 47
  path : ∀ c ∈ m.path, isPathChar c = true
  query : ∀ query, m.query = some query → IsText isQueryChar query
  fragment : ∀ fragment, m.fragment = some fragment → IsText isQueryChar fragment

def one (part : Part) (content : Option (List UInt8)) : Parts := content.toList.map ((part, ·))

def Authority.parts (a : Authority) : Parts :=
  one .user (a.user.map (·.1)) ++ one .password (a.user.bind (·.2)) ++ [(.host, a.host)] ++ one .port a.port

-- The parts in their order, without the path
def Components.parts (m : Components) : Parts :=
  (.scheme, m.scheme)
    :: ((match m.authority with
        | some a => a.parts
        | none => [])
      ++ (one .query m.query ++ one .fragment m.fragment))

def others (xml : Parts) : Parts := xml.filter (·.1 ≠ .path)

/-
Whether exactly the parts are found, where an empty path can be left out.
-/
structure Splits (m : Components) : Prop where
  ok : (split m.text).1 = true
  others : others (split m.text).2 = m.parts
  path : (split m.text).2.get .path = m.path

def Recombines (m : Components) : Prop := ofParts (split m.text).2 = m.text

/-
Which URLs can be recovered.
-/
structure Recoverable (m : Components) : Prop where
  host : ∀ a, m.authority = some a → a.host ≠ [] ∧ 58 ∉ a.host
  -- A query or fragment does not come directly after the host
  path : m.authority ≠ none → m.path = [] → m.query = none ∧ m.fragment = none
  -- It is not a host
  slashes : m.authority = none → ¬[47, 47] <+: m.path
  fragment : m.query = none → ∀ fragment, m.fragment = some fragment → 63 ∉ fragment

section Cut

variable {c : UInt8} {before after : List UInt8}

theorem cut_append (h : c ∉ before) (after : List UInt8) : cut c (before ++ c :: after) = some (before, after) := by
  obtain ⟨htake, hdrop⟩ := Delimiter.takeWhile_ne h after
  unfold cut
  rw [if_pos (List.mem_append_right _ List.mem_cons_self), htake, hdrop]
  rfl

theorem cut_of_not_mem (h : c ∉ before) : cut c before = none := if_neg h

theorem not_mem_of_cut (h : cut c before = none) : c ∉ before := by
  intro hmem
  unfold cut at h
  rw [if_pos hmem] at h
  contradiction

theorem cut_some {text : List UInt8} (h : cut c text = some (before, after)) : text = before ++ c :: after ∧ c ∉ before := by
  unfold cut at h
  split at h
  . next hmem =>
    obtain ⟨pre, post, rfl, hpre⟩ := List.eq_append_cons_of_mem hmem
    have hcut := cut_append hpre post
    unfold cut at hcut
    rw [if_pos hmem] at hcut
    cases h.symm.trans hcut
    exact ⟨rfl, hpre⟩
  . contradiction

end Cut

section Find

variable (part : Part)

theorem find_cons (e : Part × List UInt8) (xml : Parts)
    : Parts.find part (e :: xml) = if e.1 = part then some e.2 else Parts.find part xml := by
  unfold Parts.find
  by_cases h : e.1 = part
  . rw [List.find?_cons_of_pos (by simpa using h), if_pos h]
    rfl
  . rw [List.find?_cons_of_neg (by simpa using h), if_neg h]

theorem find_cons_ne {part part' : Part} (h : part' ≠ part) (content : List UInt8) (xml : Parts)
    : Parts.find part ((part', content) :: xml) = Parts.find part xml := by
  rw [find_cons, if_neg h]

theorem find_append (xs ys : Parts)
    : Parts.find part (xs ++ ys) = (Parts.find part xs).or (Parts.find part ys) := by
  unfold Parts.find
  rw [List.find?_append]
  cases xs.find? fun e => e.1 = part with
  | none => rfl
  | some e => rfl

theorem find_one (part' : Part) (content : Option (List UInt8))
    : Parts.find part (one part' content) = if part' = part then content else none := by
  cases content with
  | none =>
    split
    . rfl
    . rfl
  | some s =>
    show Parts.find part [(part', s)] = _
    rw [find_cons]
    rfl

theorem find_others {part : Part} (h : part ≠ .path) (xml : Parts)
    : Parts.find part (others xml) = Parts.find part xml := by
  induction xml with
  | nil => rfl
  | cons e xml ih =>
    unfold others at ih ⊢
    by_cases hpath : e.1 = .path
    . rw [List.filter_cons_of_neg (by simp [hpath]), find_cons, if_neg, ih]
      rw [hpath]
      exact h.symm
    . rw [List.filter_cons_of_pos (by simp [hpath]), find_cons, find_cons, ih]

end Find

section SplitParts

theorem find_splitPath {part : Part} (h : part ∈ [.scheme, .user, .password, .host, .port]) (text : List UInt8)
    : Parts.find part (splitPath text) = none := by
  have hpath : Part.path ≠ part := by
    rintro rfl
    contradiction
  have hquery : Part.query ≠ part := by
    rintro rfl
    contradiction
  have hfragment : Part.fragment ≠ part := by
    rintro rfl
    contradiction
  unfold splitPath
  split
  . rfl
  . split
    . split
      . simp [Parts.find, hpath]
      . simp [Parts.find, hpath, hfragment]
    . split
      . simp [Parts.find, hpath, hquery]
      . simp [Parts.find, hpath, hquery, hfragment]

def Authority.loginParts (a : Authority) : Parts := one .user (a.user.map (·.1)) ++ one .password (a.user.bind (·.2))

-- What is found is what there is.
theorem splitUser_spec (s : List UInt8)
    : ∃ a : Authority, (splitUser s).1 = a.loginParts ∧ a.login ++ (splitUser s).2 = s := by
  unfold splitUser
  cases hat : cut 64 s with
  | none => exact ⟨{ user := none, host := [], port := none }, rfl, rfl⟩
  | some found =>
    obtain ⟨login, host⟩ := found
    obtain ⟨rfl, -⟩ := cut_some hat
    dsimp only
    cases hcolon : cut 58 login with
    | none =>
      refine ⟨{ user := some (login, none), host := [], port := none }, rfl, ?_⟩
      simp [Authority.login, separated]
    | some found =>
      obtain ⟨user, password⟩ := found
      obtain ⟨rfl, -⟩ := cut_some hcolon
      refine ⟨{ user := some (user, some password), host := [], port := none }, rfl, ?_⟩
      simp [Authority.login, separated]

theorem splitHost_spec (s : List UInt8)
    : ∃ host port, splitHost s = (.host, host) :: one .port port ∧ host ++ separated 58 port = s ∧ 58 ∉ host := by
  unfold splitHost
  cases hcolon : cut 58 s with
  | none => exact ⟨s, none, rfl, List.append_nil s, not_mem_of_cut hcolon⟩
  | some found =>
    obtain ⟨host, port⟩ := found
    obtain ⟨rfl, hhost⟩ := cut_some hcolon
    exact ⟨host, some port, rfl, rfl, hhost⟩

theorem splitAuthority_spec (s : List UInt8)
    : ∃ a : Authority, (splitUser s).1 ++ splitHost (splitUser s).2 = a.parts ∧ a.text = s ∧ 58 ∉ a.host := by
  obtain ⟨a, hparts, htext⟩ := splitUser_spec s
  obtain ⟨host, port, hhost, hcolon, hnot⟩ := splitHost_spec (splitUser s).2
  refine ⟨{ user := a.user, host, port }, ?_, ?_, hnot⟩
  . rw [hparts, hhost]
    simp [Authority.loginParts, Authority.parts]
  . unfold Authority.text
    rw [List.append_assoc, hcolon]
    exact htext

theorem find_authority (part : Part) (a : Authority)
    : Parts.find part a.parts =
        match part with
        | .user => a.user.map (·.1)
        | .password => a.user.bind (·.2)
        | .host => some a.host
        | .port => a.port
        | _ => none := by
  unfold Authority.parts
  rw [find_append, find_append, find_append, find_one, find_one, find_one, find_cons]
  cases part with
  | host => simp
  | _ => simp [Parts.find]

theorem authority_ext {a b : Authority} {xs ys : Parts} (hxs : ∀ part ∈ [.user, .password, .host, .port], Parts.find part xs = none)
    (hys : ∀ part ∈ [.user, .password, .host, .port], Parts.find part ys = none)
    (h : a.parts ++ xs = b.parts ++ ys)
    : a = b := by
  have hfind (part : Part) (hpart : part ∈ [.user, .password, .host, .port])
      : Parts.find part a.parts = Parts.find part b.parts := by
    have heq := congrArg (Parts.find part) h
    rw [find_append, find_append, hxs part hpart, hys part hpart, Option.or_none, Option.or_none] at heq
    exact heq
  have huser := hfind .user (by decide)
  have hpassword := hfind .password (by decide)
  have hhost := hfind .host (by decide)
  have hport := hfind .port (by decide)
  rw [find_authority, find_authority] at huser hpassword hhost hport
  obtain ⟨auser, ahost, aport⟩ := a
  obtain ⟨buser, bhost, bport⟩ := b
  dsimp only at huser hpassword hhost hport
  cases hhost
  cases hport
  have hboth : auser = buser := by
    cases auser with
    | none =>
      cases buser with
      | none => rfl
      | some b => cases huser
    | some a =>
      cases buser with
      | none => cases huser
      | some b => exact congrArg some (Prod.ext (Option.some.inj huser) hpassword)
  rw [hboth]

end SplitParts

section WellFormed

theorem not_mem_of_all {p : UInt8 → Bool} {text : List UInt8} {c : UInt8} (h : ∀ d ∈ text, p d = true) (hc : p c = false)
    : c ∉ text := by
  intro hmem
  rw [h c hmem] at hc
  contradiction

theorem IsHost.not_mem {host : List UInt8} (h : IsHost host) {c : UInt8} (hc : c ∈ [47, 64]) : c ∉ host := by
  obtain ⟨hname, hcolon, hopen, hclose⟩ : isNameChar c = false ∧ c ≠ 58 ∧ c ≠ 91 ∧ c ≠ 93 := by
    rcases List.mem_pair.mp hc with rfl | rfl
    . exact ⟨rfl, by decide⟩
    . exact ⟨rfl, by decide⟩
  rcases h with hall | ⟨address, rfl, hall⟩
  . exact not_mem_of_all hall hname
  . intro hmem
    rw [List.mem_append, List.mem_append, List.mem_singleton, List.mem_singleton] at hmem
    rcases hmem with (heq | hmem) | heq
    . exact hopen heq
    . rcases hall c hmem with htrue | heq
      . rw [hname] at htrue
        contradiction
      . exact hcolon heq
    . exact hclose heq

variable {a : Authority}

theorem Authority.WellFormed.port_not_mem (h : a.WellFormed) {c : UInt8} (hc : c ∈ [47, 64]) : c ∉ separated 58 a.port := by
  have hplace : c ≠ 58 ∧ decide (48 ≤ c ∧ c ≤ 57) = false := by
    rcases List.mem_pair.mp hc with rfl | rfl
    . exact ⟨by decide, rfl⟩
    . exact ⟨by decide, rfl⟩
  cases hport : a.port with
  | none => exact List.not_mem_nil
  | some port =>
    rw [separated, List.mem_cons, not_or]
    exact ⟨hplace.1, not_mem_of_all (h.port port hport).2 hplace.2⟩

theorem Authority.WellFormed.slash (h : a.WellFormed) : 47 ∉ a.text := by
  unfold Authority.text
  rw [List.mem_append, List.mem_append, not_or, not_or]
  refine ⟨⟨?_, h.host.not_mem (by decide)⟩, h.port_not_mem (by decide)⟩
  unfold Authority.login
  cases huser : a.user with
  | none => exact List.not_mem_nil
  | some login =>
    obtain ⟨user, password⟩ := login
    obtain ⟨⟨-, hall⟩, hpassword⟩ := h.user user password huser
    dsimp only
    rw [List.mem_append, List.mem_append, not_or, not_or]
    refine ⟨⟨not_mem_of_all hall (by decide), ?_⟩, by decide⟩
    cases password with
    | none => exact List.not_mem_nil
    | some p =>
      rw [separated, List.mem_cons, not_or]
      exact ⟨by decide, not_mem_of_all (hpassword p rfl).2 (by decide)⟩

theorem Authority.WellFormed.splitUser (h : a.WellFormed) {host : List UInt8} (hhost : 64 ∉ host)
    : splitUser (a.login ++ host) = (a.loginParts, host) := by
  unfold Authority.login Authority.loginParts URL.splitUser
  cases huser : a.user with
  | none =>
    dsimp only
    rw [List.nil_append, cut_of_not_mem hhost]
    rfl
  | some login =>
    obtain ⟨user, password⟩ := login
    obtain ⟨⟨-, hall⟩, hpassword⟩ := h.user user password huser
    have hat : 64 ∉ user := not_mem_of_all hall (by decide)
    have hcolon : 58 ∉ user := not_mem_of_all hall (by decide)
    have hsplit (login : List UInt8) : login ++ [64] ++ host = login ++ 64 :: host := List.append_assoc ..
    cases password with
    | none =>
      have hlogin : user ++ separated 58 none = user := List.append_nil user
      dsimp only
      rw [hlogin, hsplit, cut_append hat]
      dsimp only
      rw [cut_of_not_mem hcolon]
      rfl
    | some p =>
      have hp : 64 ∉ user ++ 58 :: p := by
        rw [List.mem_append, List.mem_cons, not_or, not_or]
        exact ⟨hat, by decide, not_mem_of_all (hpassword p rfl).2 (by decide)⟩
      have hlogin : user ++ separated 58 (some p) = user ++ 58 :: p := rfl
      dsimp only
      rw [hlogin, hsplit, cut_append hp]
      dsimp only
      rw [cut_append hcolon]
      rfl

theorem splitHost_text {host : List UInt8} (h : 58 ∉ host) (port : Option (List UInt8))
    : splitHost (host ++ separated 58 port) = (.host, host) :: one .port port := by
  unfold splitHost
  cases port with
  | none =>
    have hhost : host ++ separated 58 none = host := List.append_nil host
    rw [hhost, cut_of_not_mem h]
    rfl
  | some port =>
    have hhost : host ++ separated 58 (some port) = host ++ 58 :: port := rfl
    rw [hhost, cut_append h]
    rfl

theorem Authority.WellFormed.split_parts (h : a.WellFormed) (hcolon : 58 ∉ a.host)
    : (URL.splitUser a.text).1 ++ splitHost (URL.splitUser a.text).2 = a.parts := by
  have hat : 64 ∉ a.host ++ separated 58 a.port := by
    rw [List.mem_append, not_or]
    exact ⟨h.host.not_mem (by decide), h.port_not_mem (by decide)⟩
  have htext : a.text = a.login ++ (a.host ++ separated 58 a.port) := List.append_assoc ..
  rw [htext, h.splitUser hat, splitHost_text hcolon]
  simp [Authority.loginParts, Authority.parts]

variable {m : Components}

theorem Components.WellFormed.query_not_mem (h : m.WellFormed) {query : List UInt8} (hquery : m.query = some query)
    : 35 ∉ query :=
  not_mem_of_all (h.query query hquery).2 (by decide)

theorem Components.WellFormed.path_not_mem (h : m.WellFormed) : 63 ∉ m.path ∧ 35 ∉ m.path :=
  ⟨not_mem_of_all h.path (by decide), not_mem_of_all h.path (by decide)⟩

/--
The first `?` is taken for the start of the query, also in a fragment.
-/
theorem splitPath_rest_iff (h : m.WellFormed)
    : others (splitPath m.rest) = one .query m.query ++ one .fragment m.fragment
          ∧ Parts.get (splitPath m.rest) .path = m.path
        ↔
      (m.query = none → ∀ fragment, m.fragment = some fragment → 63 ∉ fragment) := by
  obtain ⟨hquestion, hhash⟩ := h.path_not_mem
  unfold Components.rest splitPath
  cases hquery : m.query with
  | some query =>
    have hrest : m.path ++ separated 63 (some query) ++ separated 35 m.fragment
        = m.path ++ 63 :: (query ++ separated 35 m.fragment) := List.append_assoc ..
    rw [hrest, if_neg (List.append_ne_nil_of_right_ne_nil _ (List.cons_ne_nil _ _)), cut_append hquestion]
    refine iff_of_true ?_ fun hnone => absurd hnone (Option.some_ne_none _)
    dsimp only
    cases m.fragment with
    | none =>
      have hplain : query ++ separated 35 none = query := List.append_nil query
      rw [hplain, cut_of_not_mem (h.query_not_mem hquery)]
      exact ⟨rfl, rfl⟩
    | some fragment =>
      have hplain : query ++ separated 35 (some fragment) = query ++ 35 :: fragment := rfl
      rw [hplain, cut_append (h.query_not_mem hquery)]
      exact ⟨rfl, rfl⟩
  | none =>
    have hrest : m.path ++ separated 63 none = m.path := List.append_nil m.path
    rw [hrest]
    cases m.fragment with
    | none =>
      have hplain : m.path ++ separated 35 none = m.path := List.append_nil m.path
      refine iff_of_true ?_ fun _ _ hnone => absurd hnone.symm (Option.some_ne_none _)
      rw [hplain]
      split
      . next hnil => exact ⟨rfl, hnil.symm⟩
      . rw [cut_of_not_mem hquestion]
        dsimp only
        rw [cut_of_not_mem hhash]
        exact ⟨rfl, rfl⟩
    | some fragment =>
      have hplain : m.path ++ separated 35 (some fragment) = m.path ++ 35 :: fragment := rfl
      rw [hplain, if_neg (List.append_ne_nil_of_right_ne_nil _ (List.cons_ne_nil _ _))]
      by_cases hmem : 63 ∈ fragment
      . have hcut : cut 63 (m.path ++ 35 :: fragment) ≠ none := fun hnone =>
          not_mem_of_cut hnone (List.mem_append_right _ (List.mem_cons_of_mem _ hmem))
        refine iff_of_false ?_ fun hnone => hnone rfl fragment rfl hmem
        rintro ⟨hothers, -⟩
        have hfind := congrArg (Parts.find .query) hothers
        rw [find_others (by decide)] at hfind
        cases hfound : cut 63 (m.path ++ 35 :: fragment) with
        | none => exact hcut hfound
        | some found =>
          obtain ⟨path, rest⟩ := found
          rw [hfound] at hfind
          dsimp only at hfind
          split at hfind
          . cases hfind
          . cases hfind
      . have hnot : 63 ∉ m.path ++ 35 :: fragment := by
          rw [List.mem_append, List.mem_cons, not_or, not_or]
          exact ⟨hquestion, by decide, hmem⟩
        rw [cut_of_not_mem hnot]
        dsimp only
        rw [cut_append hhash]
        refine iff_of_true ⟨rfl, rfl⟩ ?_
        intro _ f hf
        rw [← Option.some.inj hf]
        exact hmem

-- What comes behind a host starts with a slash, if it is no query or fragment.
theorem takeWhile_text_iff (h : m.WellFormed) {s : List UInt8} (hs : 47 ∉ s)
    : (s ++ m.rest).takeWhile (· ≠ 47) = s ↔ (m.path = [] → m.query = none ∧ m.fragment = none) := by
  rw [List.takeWhile_append_of_pos (Delimiter.forall_ne hs)]
  unfold Components.rest
  cases hpath : m.path with
  | cons c path =>
    have hc : c = 47 := by
      have hhead := h.path_head.resolve_left (by simp [hpath])
      rw [hpath] at hhead
      exact Option.some.inj hhead
    rw [hc]
    exact iff_of_true (by simp) fun hnil => absurd hnil (List.cons_ne_nil _ _)
  | nil =>
    rw [List.nil_append, imp_iff_right rfl]
    cases m.query with
    | some query => exact iff_of_false (by simp [separated]) fun hnone => absurd hnone.1 (Option.some_ne_none _)
    | none =>
      cases m.fragment with
      | some fragment => exact iff_of_false (by simp [separated]) fun hnone => absurd hnone.2 (Option.some_ne_none _)
      | none => exact iff_of_true (by simp [separated]) ⟨rfl, rfl⟩

theorem split_text (h : m.WellFormed)
    : split m.text
        = splitScheme m.scheme ((match m.authority with
            | some a => [47, 47] ++ a.text
            | none => []) ++ m.rest) := by
  have hcolon : 58 ∉ m.scheme := not_mem_of_all h.scheme.2 (by decide)
  have hslash : 47 ∉ m.scheme := not_mem_of_all h.scheme.2 (by decide)
  unfold Components.text split
  rw [List.append_assoc, List.append_assoc, List.singleton_append, cut_append hcolon]
  exact if_neg hslash

theorem parts_authority (h : m.authority = some a)
    : m.parts = (.scheme, m.scheme) :: (a.parts ++ (one .query m.query ++ one .fragment m.fragment)) := by
  unfold Components.parts
  rw [h]

theorem others_cons {part : Part} (h : part ≠ .path) (content : List UInt8) (xml : Parts)
    : others ((part, content) :: xml) = (part, content) :: others xml :=
  List.filter_cons_of_pos (by simpa using h)

theorem others_authority (a : Authority) : others a.parts = a.parts := by
  unfold others
  rw [List.filter_eq_self]
  intro e he
  apply decide_eq_true
  intro heq
  have hfind : Parts.find .path a.parts = none := find_authority .path a
  unfold Parts.find at hfind
  rw [Option.map_eq_none_iff, List.find?_eq_none] at hfind
  exact hfind e he (decide_eq_true heq)

theorem splitScheme_authority (scheme : List UInt8) {s : List UInt8} (hs : s ≠ [])
    : ∃ b : Authority,
        splitScheme scheme ([47, 47] ++ s)
            = (true, (.scheme, scheme) :: (b.parts ++ splitPath (s.dropWhile (· ≠ 47))))
          ∧ b.parts = (URL.splitUser (s.takeWhile (· ≠ 47))).1 ++ splitHost (URL.splitUser (s.takeWhile (· ≠ 47))).2
          ∧ b.text = s.takeWhile (· ≠ 47)
          ∧ 58 ∉ b.host := by
  obtain ⟨b, hparts, htext, hcolon⟩ := splitAuthority_spec (s.takeWhile (· ≠ 47))
  refine ⟨b, ?_, hparts.symm, htext, hcolon⟩
  have hcons : [47, 47] ++ s = 47 :: 47 :: s := rfl
  rw [hcons, splitScheme, if_neg hs, ← hparts]

theorem splitScheme_plain (scheme : List UInt8) {s : List UInt8} (hs : ¬[47, 47] <+: s)
    : splitScheme scheme s = (true, (.scheme, scheme) :: splitPath s) := by
  unfold splitScheme
  split
  . next rest => exact absurd ⟨rest, rfl⟩ hs
  . rfl

theorem find_rest_none {part : Part} (h : part ∈ [.user, .password, .host, .port]) (query fragment : Option (List UInt8))
    : Parts.find part (one .query query ++ one .fragment fragment) = none := by
  rw [find_append, find_one, find_one, if_neg, if_neg]
  . rfl
  . rintro rfl
    contradiction
  . rintro rfl
    contradiction

theorem splits_authority_iff (h : m.WellFormed) (ha : m.authority = some a) (hne : a.text ++ m.rest ≠ [])
    : Splits m ↔ 58 ∉ a.host ∧ (m.path = [] → m.query = none ∧ m.fragment = none)
        ∧ (m.query = none → ∀ fragment, m.fragment = some fragment → 63 ∉ fragment) := by
  have hslash := (h.authority a ha).slash
  obtain ⟨b, hsplit, hparts, htext, hcolon⟩ := splitScheme_authority m.scheme hne
  have hxml : split m.text
      = (true, (.scheme, m.scheme) :: (b.parts ++ splitPath ((a.text ++ m.rest).dropWhile (· ≠ 47)))) := by
    rw [split_text h, ha, ← hsplit, ← List.append_assoc]
  have hothers (xml : Parts) : others ((.scheme, m.scheme) :: (b.parts ++ xml)) = (.scheme, m.scheme) :: (b.parts ++ others xml) := by
    rw [others_cons (by decide), others, List.filter_append]
    exact congrArg (fun parts => (Part.scheme, m.scheme) :: (parts ++ others xml)) (others_authority b)
  have hpath (xml : Parts) : Parts.get ((.scheme, m.scheme) :: (b.parts ++ xml)) .path = xml.get .path := by
    unfold Parts.get
    rw [find_cons_ne (by decide), find_append, find_authority]
    rfl
  -- What is left for the path, once the host is the right one
  have hrest (heq : b.text = a.text) : (a.text ++ m.rest).dropWhile (· ≠ 47) = m.rest := by
    have happend := List.takeWhile_append_dropWhile (p := fun c : UInt8 => decide (c ≠ 47)) (l := a.text ++ m.rest)
    rw [← htext, heq] at happend
    exact List.append_cancel_left happend
  constructor
  . intro hs
    have hall := hs.others
    rw [hxml, hothers, parts_authority ha] at hall
    have hab : b = a := by
      refine authority_ext ?_ ?_ (List.cons.inj hall).2
      . intro part hpart
        have hplace : part ≠ .path ∧ part ∈ [Part.scheme, .user, .password, .host, .port] := by
          revert part
          decide
        rw [find_others hplace.1]
        exact find_splitPath hplace.2 _
      . intro part hpart
        exact find_rest_none hpart m.query m.fragment
    have hfound := hs.path
    rw [hxml, hpath, hrest (by rw [hab])] at hfound
    rw [hab, hrest (by rw [hab])] at hall
    rw [hab] at htext hcolon
    exact ⟨hcolon, (takeWhile_text_iff h hslash).mp htext.symm,
      (splitPath_rest_iff h).mp ⟨List.append_cancel_left (List.cons.inj hall).2, hfound⟩⟩
  . rintro ⟨hhost, hpath_query, hfragment⟩
    have htake := (takeWhile_text_iff h hslash).mpr hpath_query
    have hb : b.parts = a.parts := by
      rw [hparts, htake]
      exact (h.authority a ha).split_parts hhost
    obtain ⟨hall, hfound⟩ := (splitPath_rest_iff h).mpr hfragment
    constructor
    . rw [hxml]
    . rw [hxml, hothers, parts_authority ha, hb, hrest (htext.trans htake), hall]
    . rw [hxml, hpath, hrest (htext.trans htake), hfound]

theorem slashes_append_iff {path tail : List UInt8} (h : tail.head? ≠ some 47)
    : [47, 47] <+: path ++ tail ↔ [47, 47] <+: path := by
  refine ⟨?_, fun hpath => hpath.trans (List.prefix_append path tail)⟩
  intro hstart
  rcases path with _ | ⟨c, _ | ⟨d, path⟩⟩
  . cases tail with
    | nil => exact hstart
    | cons c tail =>
      rw [List.nil_append, List.cons_prefix_cons] at hstart
      exact absurd (congrArg some hstart.1.symm) h
  . cases tail with
    | nil => exact hstart
    | cons d tail =>
      rw [List.singleton_append, List.cons_prefix_cons, List.cons_prefix_cons] at hstart
      exact absurd (congrArg some hstart.2.1.symm) h
  . rw [List.cons_append, List.cons_append, List.cons_prefix_cons, List.cons_prefix_cons] at hstart
    rw [List.cons_prefix_cons, List.cons_prefix_cons]
    exact ⟨hstart.1, hstart.2.1, List.nil_prefix⟩

theorem slashes_rest_iff (m : Components) : [47, 47] <+: m.rest ↔ [47, 47] <+: m.path := by
  have hhead : (separated 63 m.query ++ separated 35 m.fragment).head? ≠ some 47 := by
    cases m.query with
    | some query => simp [separated]
    | none =>
      cases m.fragment with
      | some fragment => simp [separated]
      | none => simp [separated]
  have hrest : m.rest = m.path ++ (separated 63 m.query ++ separated 35 m.fragment) := List.append_assoc ..
  rw [hrest]
  exact slashes_append_iff hhead

theorem splits_none_iff (h : m.WellFormed) (ha : m.authority = none)
    : Splits m ↔ ¬[47, 47] <+: m.path
        ∧ (m.query = none → ∀ fragment, m.fragment = some fragment → 63 ∉ fragment) := by
  have hparts : m.parts = (.scheme, m.scheme) :: (one .query m.query ++ one .fragment m.fragment) := by
    unfold Components.parts
    rw [ha, List.nil_append]
  have htext : split m.text = splitScheme m.scheme m.rest := by
    rw [split_text h, ha, List.nil_append]
  by_cases hslashes : [47, 47] <+: m.path
  . refine iff_of_false ?_ fun hnot => hnot.1 hslashes
    intro hs
    obtain ⟨rest, hrest⟩ := (slashes_rest_iff m).mpr hslashes
    rw [← hrest] at htext
    by_cases hnil : rest = []
    . have hok := hs.ok
      rw [htext, hnil] at hok
      contradiction
    . obtain ⟨b, hsplit, -, -, -⟩ := splitScheme_authority m.scheme hnil
      -- It is taken for a host.
      have hfind := congrArg (Parts.find .host) hs.others
      rw [htext, hsplit, hparts, find_others (by decide), find_cons_ne (by decide), find_append, find_authority,
        find_cons_ne (by decide), find_rest_none (by decide)] at hfind
      cases hfind
  . have hxml : split m.text = (true, (.scheme, m.scheme) :: splitPath m.rest) := by
      rw [htext]
      exact splitScheme_plain m.scheme fun hrest => hslashes ((slashes_rest_iff m).mp hrest)
    have hpath : Parts.get ((.scheme, m.scheme) :: splitPath m.rest) .path = (splitPath m.rest).get .path := by
      unfold Parts.get
      rw [find_cons_ne (by decide)]
    rw [← splitPath_rest_iff h, and_iff_right hslashes]
    constructor
    . intro hs
      have hall := hs.others
      have hfound := hs.path
      rw [hxml, others_cons (by decide), hparts] at hall
      rw [hxml, hpath] at hfound
      exact ⟨(List.cons.inj hall).2, hfound⟩
    . rintro ⟨hall, hfound⟩
      constructor
      . rw [hxml]
      . rw [hxml, others_cons (by decide), hparts, hall]
      . rw [hxml, hpath, hfound]

theorem Authority.text_ne_nil (h : a.host ≠ []) : a.text ≠ [] := by
  unfold Authority.text
  exact List.append_ne_nil_of_left_ne_nil (List.append_ne_nil_of_right_ne_nil a.login h) _

theorem prefixed_getD (c : UInt8) {content : Option (List UInt8)} (h : ∀ text, content = some text → text ≠ [])
    : prefixed c (content.getD []) = separated c content := by
  cases content with
  | none => rfl
  | some text => exact if_pos (h text rfl)

theorem Authority.WellFormed.prefixed_port (h : a.WellFormed) : prefixed 58 (a.port.getD []) = separated 58 a.port :=
  prefixed_getD 58 fun port hport => (h.port port hport).1

theorem Authority.WellFormed.prefixed_user (h : a.WellFormed)
    : (if (a.user.map (·.1)).getD [] ≠ [] then
          (a.user.map (·.1)).getD [] ++ prefixed 58 ((a.user.bind (·.2)).getD []) ++ [64]
        else [])
      = a.login := by
  unfold Authority.login
  cases huser : a.user with
  | none => rfl
  | some login =>
    obtain ⟨user, password⟩ := login
    obtain ⟨⟨hne, -⟩, hpassword⟩ := h.user user password huser
    have hprefixed := prefixed_getD 58 fun p hp => (hpassword p hp).1
    dsimp only [Option.map_some, Option.bind_some, Option.getD_some]
    rw [if_pos hne, hprefixed]

theorem Splits.find (hs : Splits m) {part : Part} (hpart : part ≠ .path)
    : Parts.find part (split m.text).2 = Parts.find part m.parts := by
  rw [← hs.others, find_others hpart]

theorem Splits.get (hs : Splits m) (part : Part) (hpart : part ≠ .path)
    : (split m.text).2.get part = m.parts.get part := by
  unfold Parts.get
  rw [hs.find hpart]

theorem find_parts (part : Part) (m : Components)
    : Parts.find part m.parts =
        match part with
        | .scheme => some m.scheme
        | .user => m.authority.bind fun a => a.user.map (·.1)
        | .password => m.authority.bind fun a => a.user.bind (·.2)
        | .host => m.authority.map (·.host)
        | .port => m.authority.bind (·.port)
        | .path => none
        | .query => m.query
        | .fragment => m.fragment := by
  unfold Components.parts
  rw [find_cons, find_append, find_append, find_one, find_one]
  cases m.authority with
  | none =>
    cases part with
    | query => simp [Parts.find]
    | _ => simp [Parts.find]
  | some a =>
    dsimp only
    rw [find_authority]
    cases part with
    | query => simp
    | _ => simp

theorem Splits.ofParts_eq (h : m.WellFormed) (hs : Splits m)
    : ofParts (split m.text).2
        = m.scheme ++ [58]
            ++ (match m.authority with
              | some a => if a.host ≠ [] then [47, 47] ++ a.text else []
              | none => [])
            ++ m.rest := by
  have hquery : prefixed 63 (m.query.getD []) = separated 63 m.query :=
    prefixed_getD 63 fun query hquery => (h.query query hquery).1
  have hfragment : prefixed 35 (m.fragment.getD []) = separated 35 m.fragment :=
    prefixed_getD 35 fun fragment hfragment => (h.fragment fragment hfragment).1
  unfold ofParts
  rw [hs.get .scheme (by decide), hs.get .user (by decide), hs.get .password (by decide),
    hs.get .host (by decide), hs.get .port (by decide), hs.get .query (by decide),
    hs.get .fragment (by decide), hs.path]
  unfold Parts.get
  rw [find_parts, find_parts, find_parts, find_parts, find_parts, find_parts, find_parts]
  dsimp only
  rw [hquery, hfragment, Option.getD_some, if_pos h.scheme.1]
  unfold Components.rest
  cases ha : m.authority with
  | none => simp
  | some a =>
    have huser := (h.authority a ha).prefixed_user
    have hport := (h.authority a ha).prefixed_port
    dsimp only [Option.bind_some, Option.map_some, Option.getD_some]
    rw [huser, hport]
    simp [Authority.text]

theorem Splits.recombines_iff (h : m.WellFormed) (hs : Splits m)
    : Recombines m ↔ ∀ a, m.authority = some a → a.host ≠ [] := by
  unfold Recombines
  rw [hs.ofParts_eq h]
  unfold Components.text
  cases ha : m.authority with
  | none => exact iff_of_true rfl fun a hnone => absurd hnone.symm (Option.some_ne_none a)
  | some a =>
    dsimp only
    constructor
    . rintro heq b hb hhost
      rw [← Option.some.inj hb] at hhost
      rw [if_neg (not_not_intro hhost)] at heq
      have hlength := congrArg List.length heq
      simp at hlength
      omega
    . intro hhost
      rw [if_pos (hhost a rfl)]

/--
A URL is split into what it has been composed of, and put together again, if and only if it has a host wherever it has
an authority, the host has no colon in it, no query or fragment comes directly after the host, there are no two slashes
at the start of a path without authority, and there is no question mark in a fragment without a query before it.
-/
theorem composed_iff (m : Components) (h : m.WellFormed) : (Splits m ∧ Recombines m) ↔ Recoverable m := by
  constructor
  . rintro ⟨hs, hrecombines⟩
    have hhost := (hs.recombines_iff h).mp hrecombines
    cases ha : m.authority with
    | none =>
      obtain ⟨hslashes, hfragment⟩ := (splits_none_iff h ha).mp hs
      refine ⟨fun a hsome => ?_, fun hnot => absurd ha hnot, fun _ => hslashes, hfragment⟩
      rw [ha] at hsome
      contradiction
    | some a =>
      have hne := List.append_ne_nil_of_left_ne_nil (Authority.text_ne_nil (hhost a ha)) m.rest
      obtain ⟨hcolon, hpath, hfragment⟩ := (splits_authority_iff h ha hne).mp hs
      refine ⟨fun b hb => ⟨hhost b hb, ?_⟩, fun _ => hpath, fun hnone => ?_, hfragment⟩
      . rw [← Option.some.inj (ha.symm.trans hb)]
        exact hcolon
      . rw [ha] at hnone
        contradiction
  . intro hr
    have hs : Splits m := by
      cases ha : m.authority with
      | none => exact (splits_none_iff h ha).mpr ⟨hr.slashes ha, hr.fragment⟩
      | some a =>
        obtain ⟨hhost, hcolon⟩ := hr.host a ha
        have hne := List.append_ne_nil_of_left_ne_nil (Authority.text_ne_nil hhost) m.rest
        refine (splits_authority_iff h ha hne).mpr ⟨hcolon, hr.path ?_, hr.fragment⟩
        rw [ha]
        exact Option.some_ne_none a
    exact ⟨hs, (hs.recombines_iff h).mpr fun a ha => (hr.host a ha).1⟩

end WellFormed

-- `http://b:x@h:8/p?q#f`
def wholeURL : Components where
  scheme := [104, 116, 116, 112]
  authority := some { user := some ([98], some [120]), host := [104], port := some [56] }
  path := [47, 112]
  query := some [113]
  fragment := some [102]

-- `http://h?q`
def hostQuery : Components where
  scheme := [104, 116, 116, 112]
  authority := some { user := none, host := [104], port := none }
  path := []
  query := some [113]
  fragment := none

theorem isText_singleton {p : UInt8 → Bool} {c : UInt8} (h : p c = true) : IsText p [c] :=
  ⟨List.cons_ne_nil _ _, List.forall_mem_singleton.mpr h⟩

theorem isText_http : IsText isSchemeChar [104, 116, 116, 112] :=
  ⟨List.cons_ne_nil _ _, List.all_eq_true.mp rfl⟩

theorem wholeURL_wellFormed : wholeURL.WellFormed := by
  refine ⟨isText_http, ?_, Or.inr rfl, List.all_eq_true.mp rfl, ?_, ?_⟩
  . rintro a ⟨⟩
    refine ⟨?_, Or.inl (List.all_eq_true.mp rfl), ?_⟩
    . rintro user password ⟨⟩
      refine ⟨isText_singleton rfl, ?_⟩
      rintro p ⟨⟩
      exact isText_singleton rfl
    . rintro port ⟨⟩
      exact isText_singleton rfl
  . rintro query ⟨⟩
    exact isText_singleton rfl
  . rintro fragment ⟨⟩
    exact isText_singleton rfl

theorem hostQuery_wellFormed : hostQuery.WellFormed := by
  refine ⟨isText_http, ?_, Or.inl rfl, List.all_eq_true.mp rfl, ?_, ?_⟩
  . rintro a ⟨⟩
    refine ⟨?_, Or.inl (List.all_eq_true.mp rfl), ?_⟩
    . intro user password hnone
      contradiction
    . intro port hnone
      contradiction
  . rintro query ⟨⟩
    exact isText_singleton rfl
  . intro fragment hnone
    contradiction

theorem composed_iff_whole : Splits wholeURL ∧ Recombines wholeURL := by
  refine (composed_iff wholeURL wholeURL_wellFormed).mpr ⟨?_, ?_, ?_, ?_⟩
  . rintro a ⟨⟩
    decide
  . intro _ hnil
    contradiction
  . intro hnone
    contradiction
  . intro hnone
    contradiction

-- The query becomes part of the host.
theorem not_composed : ¬∀ m : Components, m.WellFormed → Splits m ∧ Recombines m := by
  intro hall
  have hothers := (hall hostQuery hostQuery_wellFormed).1.others
  revert hothers
  decide

end URL
end Web
end ObTools
