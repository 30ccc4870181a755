import ObTools.Web.URLParts

/-!
This module contains the proof of which parameters in the query of a URL are kept when one of them is set, as the names
of parameters are encoded but not decoded.
-/

namespace ObTools
namespace Web
namespace URL

open Misc (PropertyList)

variable {f : Bool}

section Encode

theorem encode_injective {s t : List UInt8} (h : encode s f = encode t f) : s = t := by
  have hdecode := congrArg (decode f) h
  rw [decode_encode_self, decode_encode_self] at hdecode
  exact hdecode

theorem encode_ne_nil {s : List UInt8} (h : s ≠ []) : encode s f ≠ [] :=
  fun hnil => h (encode_injective (t := []) hnil)

-- The characters that separate names, values and parameters
theorem not_mem_encode {c : UInt8} (hc : c ∈ reserved) (h37 : c ≠ 37) (h43 : c ≠ 43) (s : List UInt8) : c ∉ encode s f := by
  intro hmem
  rcases encode_coded s c hmem with heq | ⟨-, heq⟩ | ⟨-, -, hnot⟩
  . exact h37 heq
  . exact h43 heq
  . exact hnot hc

theorem space_not_mem_encode (s : List UInt8) : 32 ∉ encode s f := by
  intro hmem
  rcases encode_coded s 32 hmem with heq | ⟨-, heq⟩ | ⟨hlt, -, -⟩
  . contradiction
  . contradiction
  . exact absurd hlt (by decide)

theorem encode_cons (c : UInt8) (s : List UInt8) : encode (c :: s) f = encodeChar f c ++ encode s f := List.flatMap_cons

-- A character is either kept or becomes something that begins with `%`
theorem encodeChar_cases (c : UInt8) : encodeChar false c = [c] ∨ (encodeChar false c).head? = some 37 := by
  unfold encodeChar
  split
  . exact Or.inr rfl
  . split
    . exact Or.inr rfl
    . split
      . exact Or.inr rfl
      . exact Or.inl rfl

theorem length_encodeChar_pos (c : UInt8) : 0 < (encodeChar f c).length := by
  unfold encodeChar
  split
  . exact Nat.succ_pos _
  . split
    . split
      . exact Nat.succ_pos _
      . exact Nat.succ_pos _
    . split
      . exact Nat.succ_pos _
      . exact Nat.succ_pos _

theorem encodeChar_eq_self {c : UInt8} (h : (encodeChar f c).length = 1) (hc : c ≠ 32) : encodeChar f c = [c] := by
  have hescape : (escape c).length ≠ 1 := show 3 ≠ 1 by decide
  unfold encodeChar at h ⊢
  split
  . next hcontrol =>
    rw [if_pos hcontrol] at h
    exact absurd h hescape
  . next hcontrol =>
    rw [if_neg hcontrol, if_neg hc] at h
    split
    . next hreserved =>
      rw [if_pos hreserved] at h
      exact absurd h hescape
    . rfl

theorem length_le_encode (s : List UInt8) : s.length ≤ (encode s f).length := by
  induction s with
  | nil => exact Nat.le_refl 0
  | cons c s ih =>
    have hpos := length_encodeChar_pos (f := f) c
    unfold encode at ih ⊢
    rw [List.flatMap_cons, List.length_append, List.length_cons]
    omega

-- Only a space can be encoded as another single character.
theorem encode_eq_self {s : List UInt8} (h : (encode s f).length ≤ s.length) (hspace : 32 ∉ s) : encode s f = s := by
  induction s with
  | nil => rfl
  | cons c s ih =>
    have hpos := length_encodeChar_pos (f := f) c
    have hle := length_le_encode (f := f) s
    rw [List.mem_cons, not_or] at hspace
    rw [encode_cons, List.length_append, List.length_cons] at h
    rw [encode_cons, ih (by omega) hspace.2, encodeChar_eq_self (by omega) (Ne.symm hspace.1), List.singleton_append]

theorem encodeChar_eq_singleton {c : UInt8} (h : encodeChar false c = [c]) : 32 < c ∧ c ≤ 126 ∧ c ∉ reserved := by
  have hcoded : IsCoded false c := encodeChar_coded c c (h ▸ List.mem_singleton_self c)
  rcases hcoded with rfl | ⟨hplus, -⟩ | hplain
  . exact absurd h (by decide)
  . contradiction
  . exact hplain

-- The texts that have nothing to encode in them
theorem encode_eq_self_iff {s : List UInt8} : encode s false = s ↔ ∀ c ∈ s, 32 < c ∧ c ≤ 126 ∧ c ∉ reserved := by
  induction s with
  | nil => exact iff_of_true rfl fun _ hmem => absurd hmem List.not_mem_nil
  | cons c s ih =>
    rw [encode_cons, List.forall_mem_cons, ← ih]
    constructor
    . intro heq
      have hsplit : encodeChar false c ++ encode s false = [c] ++ s := heq
      have hpos := length_encodeChar_pos (f := false) c
      have hle := length_le_encode (f := false) s
      have hlength := congrArg List.length heq
      rw [List.length_append, List.length_cons] at hlength
      have hone : (encodeChar false c).length = [c].length := by
        rw [List.length_singleton]
        omega
      obtain ⟨hchar, hrest⟩ := List.append_inj hsplit hone
      exact ⟨encodeChar_eq_singleton hchar, hrest⟩
    . rintro ⟨⟨hlow, hhigh, hreserved⟩, hrest⟩
      have hcontrol : ¬(c < 32 ∨ 126 < c) := by
        rw [not_or, UInt8.not_lt, UInt8.not_lt]
        exact ⟨UInt8.le_of_lt hlow, hhigh⟩
      have hspace : c ≠ 32 := by
        rintro rfl
        exact absurd hlow (by decide)
      rw [hrest, encodeChar, if_neg hcontrol, if_neg hspace, if_neg hreserved]
      rfl

end Encode

section Closed

variable {es : List (List UInt8 × List UInt8)} {exempt : List UInt8 × List UInt8 → Prop}

/-
Where each entry is what another one is encoded as, all the names are unchanged by it. If some entries are exempt, others
can be changed too, with the value of an exempt one.
-/
theorem unchanged_of_closed (h : ∀ e ∈ es, exempt e ∨ ∃ e' ∈ es, encode e'.1 f = e.1 ∧ e'.2 = e.2)
    : ∀ e ∈ es, encode e.1 f = e.1 ∨ ∃ e' ∈ es, exempt e' ∧ e'.2 = e.2 := by
  intro e he
  -- The entry that comes before is shorter, if its name is changed.
  induction hn : e.1.length using Nat.strong_induction_on generalizing e with
  | _ n ih =>
    rcases h e he with hexempt | ⟨e', he', hname, hvalue⟩
    . exact Or.inr ⟨e, he, hexempt, rfl⟩
    . rcases h e' he' with hexempt | ⟨e'', -, hname', -⟩
      . exact Or.inr ⟨e', he', hexempt, hvalue⟩
      . have hspace : 32 ∉ e'.1 := hname' ▸ space_not_mem_encode e''.1
        by_cases hlt : e'.1.length < n
        . rcases ih e'.1.length hlt e' he' rfl with hsame | ⟨x, hx, hexempt, hvalue'⟩
          . have heq : e'.1 = e.1 := hsame.symm.trans hname
            exact Or.inl (heq ▸ hsame)
          . exact Or.inr ⟨x, hx, hexempt, hvalue'.trans hvalue⟩
        . have hsame := encode_eq_self (f := f) (by rw [hname]; omega) hspace
          have heq : e'.1 = e.1 := hsame.symm.trans hname
          exact Or.inl (heq ▸ hsame)

end Closed

section Props

theorem encodeEntry_ne_nil (e : List UInt8 × List UInt8) : encodeEntry f e ≠ [] := by
  unfold encodeEntry
  exact List.append_ne_nil_of_left_ne_nil (List.append_ne_nil_of_right_ne_nil _ (List.cons_ne_nil _ _)) _

theorem encodeProps_eq (props : PropertyList)
    : encodeProps props f = [38].intercalate (props.entries.map (encodeEntry f)) :=
  Text.foldl_join [38] (encodeEntry f) fun e _ => encodeEntry_ne_nil e

theorem decodeParam_encodeEntry {e : List UInt8 × List UInt8} (h : e.1 ≠ []) (props : PropertyList)
    : decodeParam f props (encodeEntry f e) = props.add (encode e.1 f) e.2 := by
  have hequals : 61 ∉ encode e.1 f := not_mem_encode (by decide) (by decide) (by decide) e.1
  have hentry : encodeEntry f e = encode e.1 f ++ 61 :: encode e.2 f := List.append_assoc ..
  unfold decodeParam
  rw [hentry, cut_append hequals]
  dsimp only
  rw [if_pos (encode_ne_nil h), decode_encode_self]

-- The entries, as they are taken up again
def coded (f : Bool) (es : List (List UInt8 × List UInt8)) : List (List UInt8 × List UInt8) :=
  es.map fun e => (encode e.1 f, e.2)

theorem decodeProps_encodeProps {props : PropertyList} (h : ∀ e ∈ props.entries, e.1 ≠ [])
    : decodeProps (encodeProps props f) .empty f = PropertyList.empty.addAll (coded f props.entries) := by
  cases hes : props.entries with
  | nil =>
    unfold encodeProps
    rw [hes]
    rfl
  | cons e es =>
    have hand : ∀ text ∈ (e :: es).map (encodeEntry f), 38 ∉ text := by
      intro text htext
      obtain ⟨e', -, rfl⟩ := List.mem_map.mp htext
      unfold encodeEntry
      rw [List.mem_append, List.mem_append, List.mem_singleton, not_or, not_or]
      exact ⟨⟨not_mem_encode (by decide) (by decide) (by decide) _, by decide⟩,
        not_mem_encode (by decide) (by decide) (by decide) _⟩
    rw [hes] at h
    unfold decodeProps PropertyList.addAll coded
    rw [encodeProps_eq, hes, List.map_cons, Text.split_intercalate (by rwa [← List.map_cons]), ← List.map_cons,
      List.foldl_map, List.foldl_map]
    apply List.foldl_ext
    intro pl e' he'
    exact decodeParam_encodeEntry (h e' he') pl

theorem mem_coded {es : List (List UInt8 × List UInt8)} {name value : List UInt8}
    : (name, value) ∈ coded f es ↔ ∃ e ∈ es, encode e.1 f = name ∧ e.2 = value := by
  unfold coded
  rw [List.mem_map]
  simp only [Prod.mk.injEq]

theorem mem_decodeProps {props : PropertyList} (h : ∀ e ∈ props.entries, e.1 ≠ []) {name value : List UInt8}
    : (name, value) ∈ (decodeProps (encodeProps props f) .empty f).entries
        ↔ ∃ e ∈ props.entries, encode e.1 f = name ∧ e.2 = value := by
  have hne : (coded f props.entries).Pairwise fun e e' => e.1 ≠ e'.1 := by
    unfold coded
    rw [List.pairwise_map]
    refine List.Pairwise.imp ?_ props.sorted
    intro e e' hlt heq
    rw [encode_injective heq] at hlt
    exact List.lt_irrefl _ hlt
  rw [decodeProps_encodeProps h, PropertyList.mem_addAll_iff hne fun _ _ _ => List.not_mem_nil, mem_coded]
  exact or_iff_right List.not_mem_nil

/-
A list comes back if its names are unchanged.
-/
theorem decodeProps_iff {props : PropertyList} (h : ∀ e ∈ props.entries, e.1 ≠ [])
    : decodeProps (encodeProps props f) .empty f = props ↔ ∀ e ∈ props.entries, encode e.1 f = e.1 := by
  constructor
  . intro heq
    have hclosed : ∀ e ∈ props.entries, False ∨ ∃ e' ∈ props.entries, encode e'.1 f = e.1 ∧ e'.2 = e.2 := by
      intro e he
      rw [← heq] at he
      exact Or.inr ((mem_decodeProps h).mp he)
    intro e he
    rcases @unchanged_of_closed f _ (fun _ => False) hclosed e he with hsame | ⟨_, _, hfalse, _⟩
    . exact hsame
    . contradiction
  . intro hsame
    have hcoded : coded f props.entries = props.entries := by
      have hid := List.map_congr_left (f := fun e => (encode e.1 f, e.2)) (g := id) fun e he => Prod.ext (hsame e he) rfl
      exact hid.trans (List.map_id _)
    have hall : (PropertyList.empty.addAll props.entries).entries = [] ++ props.entries.map fun e => (e.1, id e.2) :=
      PropertyList.entries_foldl_add id props.sorted fun _ hf => absurd hf List.not_mem_nil
    rw [decodeProps_encodeProps h, hcoded, PropertyList.eq_iff, hall]
    exact List.map_id _

end Props

section Update

-- The parameters in the query
def params (text : List UInt8) : PropertyList := decodeProps (getQuery text) .empty true

-- It is on a host, and has a path from the root.
structure OnHost (text : List UInt8) : Prop where
  host : getHost text ≠ []
  path : (getPath text).head? = some 47

-- What is put together of such parts is split again, with the same query.
structure Resplits (xml : Parts) : Prop where
  scheme : 58 ∉ xml.get .scheme ∧ 47 ∉ xml.get .scheme
  host : xml.get .host ≠ []
  authority : ∀ part ∈ [Part.user, .password, .host, .port], 47 ∉ xml.get part
  path : (xml.get .path).head? = some 47 ∧ 63 ∉ xml.get .path
  query : xml.get .query ≠ [] ∧ 35 ∉ xml.get .query

variable {xml : Parts}

theorem get_cons_ne {part part' : Part} (h : part' ≠ part) (content : List UInt8) (xml : Parts)
    : Parts.get ((part', content) :: xml) part = xml.get part := by
  unfold Parts.get
  rw [find_cons_ne h]

theorem get_append (part : Part) (xs ys : Parts) (h : Parts.find part xs = none)
    : Parts.get (xs ++ ys) part = ys.get part := by
  unfold Parts.get
  rw [find_append, h]
  rfl

theorem find_put (part part' : Part) (content : List UInt8) (xml : Parts)
    : Parts.find part' (xml.put part content) = if part' = part then some content else xml.find part' := by
  induction xml with
  | nil =>
    rw [Parts.put, find_cons]
    exact if_congr eq_comm rfl rfl
  | cons e xml ih =>
    rw [Parts.put]
    by_cases he : e.1 = part
    . rw [if_pos he, find_cons, find_cons, he]
      by_cases hpart : part = part'
      . rw [if_pos hpart, if_pos hpart.symm]
      . rw [if_neg hpart, if_neg hpart, if_neg (Ne.symm hpart)]
    . rw [if_neg he, find_cons, ih, find_cons]
      by_cases hpart : e.1 = part'
      . rw [if_pos hpart, if_pos hpart, if_neg (hpart ▸ he)]
      . rw [if_neg hpart, if_neg hpart]

theorem get_put_self (part : Part) (content : List UInt8) (xml : Parts) : (xml.put part content).get part = content := by
  unfold Parts.get
  rw [find_put, if_pos rfl]
  rfl

theorem get_put_of_ne {part part' : Part} (h : part' ≠ part) (content : List UInt8) (xml : Parts)
    : (xml.put part content).get part' = xml.get part' := by
  unfold Parts.get
  rw [find_put, if_neg h]

theorem splitPath_query {path query : List UInt8} (hpath : 63 ∉ path) (hquery : 35 ∉ query) (fragment : List UInt8)
    : Parts.get (splitPath (path ++ 63 :: query ++ prefixed 35 fragment)) .query = query := by
  have htext : path ++ 63 :: query ++ prefixed 35 fragment = path ++ 63 :: (query ++ prefixed 35 fragment) :=
    List.append_assoc ..
  unfold splitPath
  rw [htext, if_neg (List.append_ne_nil_of_right_ne_nil _ (List.cons_ne_nil _ _)), cut_append hpath]
  dsimp only
  by_cases hfragment : fragment = []
  . have hplain : query ++ prefixed 35 fragment = query := by
      rw [hfragment]
      exact List.append_nil query
    rw [hplain, cut_of_not_mem hquery]
    rfl
  . have hhash : prefixed 35 fragment = 35 :: fragment := if_pos hfragment
    rw [hhash, cut_append hquery]
    rfl

theorem splitPath_path (text : List UInt8) : 63 ∉ Parts.get (splitPath text) .path := by
  unfold splitPath
  split
  . exact List.not_mem_nil
  . cases hquestion : cut 63 text with
    | none =>
      have hnot := not_mem_of_cut hquestion
      dsimp only
      cases hhash : cut 35 text with
      | none => exact hnot
      | some found =>
        obtain ⟨path, fragment⟩ := found
        obtain ⟨rfl, -⟩ := cut_some hhash
        exact fun hmem => hnot (List.mem_append_left _ hmem)
    | some found =>
      obtain ⟨path, rest⟩ := found
      obtain ⟨-, hnot⟩ := cut_some hquestion
      dsimp only
      split
      . exact hnot
      . exact hnot

-- A slash in front of any colon
theorem split_of_slash {text : List UInt8} (h : text.head? = some 47) : split text = (true, splitPath text) := by
  unfold split
  cases hcolon : cut 58 text with
  | none => rfl
  | some found =>
    obtain ⟨scheme, rest⟩ := found
    obtain ⟨rfl, -⟩ := cut_some hcolon
    have hslash : 47 ∈ scheme := by
      cases scheme with
      | nil => cases h
      | cons c scheme =>
        rw [← Option.some.inj h]
        exact List.mem_cons_self
    exact if_pos hslash

theorem splitScheme_query {authority text : List UInt8} (hauthority : 47 ∉ authority) (hne : authority ≠ [])
    (htext : text.head? = some 47) (scheme : List UInt8)
    : (splitScheme scheme ([47, 47] ++ (authority ++ text))).1 = true
        ∧ (splitScheme scheme ([47, 47] ++ (authority ++ text))).2.get .query = Parts.get (splitPath text) .query := by
  obtain ⟨b, hsplit, -, -, -⟩ := splitScheme_authority scheme (List.append_ne_nil_of_left_ne_nil hne text)
  have hdrop : (authority ++ text).dropWhile (· ≠ 47) = text := by
    rw [List.dropWhile_append_of_pos (Delimiter.forall_ne hauthority)]
    cases text with
    | nil => rfl
    | cons c text =>
      rw [Option.some.inj htext]
      exact List.dropWhile_cons_of_neg (by simp)
  rw [hsplit, hdrop]
  refine ⟨rfl, ?_⟩
  rw [get_cons_ne (by decide), get_append _ _ _ (find_authority .query b)]

-- What is behind the slashes, and before the path
def authorityOf (xml : Parts) : List UInt8 :=
  (if xml.get .user ≠ [] then xml.get .user ++ prefixed 58 (xml.get .password) ++ [64] else [])
    ++ xml.get .host
    ++ prefixed 58 (xml.get .port)

theorem not_mem_prefixed {c d : UInt8} {text : List UInt8} (hc : c ≠ d) (h : c ∉ text) : c ∉ prefixed d text := by
  unfold prefixed
  split
  . rw [List.mem_cons, not_or]
    exact ⟨hc, h⟩
  . exact List.not_mem_nil

theorem Resplits.slash (h : Resplits xml) : 47 ∉ authorityOf xml := by
  unfold authorityOf
  rw [List.mem_append, List.mem_append, not_or, not_or]
  refine ⟨⟨?_, h.authority .host (by decide)⟩, not_mem_prefixed (by decide) (h.authority .port (by decide))⟩
  split
  . rw [List.mem_append, List.mem_append, not_or, not_or]
    exact ⟨⟨h.authority .user (by decide), not_mem_prefixed (by decide) (h.authority .password (by decide))⟩, by decide⟩
  . exact List.not_mem_nil

theorem Resplits.getQuery (h : Resplits xml) : URL.getQuery (ofParts xml) = xml.get .query := by
  have hpath := splitPath_query h.path.2 h.query.2 (xml.get .fragment)
  have hhead : (xml.get .path ++ 63 :: xml.get .query ++ prefixed 35 (xml.get .fragment)).head? = some 47 := by
    rw [List.append_assoc, List.head?_append, h.path.1]
    rfl
  have hquery : prefixed 63 (xml.get .query) = 63 :: xml.get .query := if_pos h.query.1
  unfold URL.getQuery getPart ofParts
  rw [hquery]
  by_cases hscheme : xml.get .scheme = []
  . rw [if_neg (not_not_intro hscheme), List.nil_append, split_of_slash hhead]
    exact hpath
  . have hne : authorityOf xml ≠ [] :=
      List.append_ne_nil_of_left_ne_nil (List.append_ne_nil_of_right_ne_nil _ h.host) _
    obtain ⟨hok, hfound⟩ := splitScheme_query h.slash hne hhead (xml.get .scheme)
    have htext : xml.get .scheme ++ [58]
            ++ ([47, 47] ++ (if xml.get .user ≠ [] then xml.get .user ++ prefixed 58 (xml.get .password) ++ [64] else [])
              ++ xml.get .host ++ prefixed 58 (xml.get .port))
            ++ xml.get .path ++ 63 :: xml.get .query ++ prefixed 35 (xml.get .fragment)
        = xml.get .scheme ++ 58 :: ([47, 47]
            ++ (authorityOf xml ++ (xml.get .path ++ 63 :: xml.get .query ++ prefixed 35 (xml.get .fragment)))) := by
      unfold authorityOf
      simp only [List.append_assoc, List.cons_append, List.nil_append]
    have hsplit : split (xml.get .scheme ++ 58 :: ([47, 47]
            ++ (authorityOf xml ++ (xml.get .path ++ 63 :: xml.get .query ++ prefixed 35 (xml.get .fragment)))))
        = splitScheme (xml.get .scheme) ([47, 47]
            ++ (authorityOf xml ++ (xml.get .path ++ 63 :: xml.get .query ++ prefixed 35 (xml.get .fragment)))) := by
      unfold split
      rw [cut_append h.scheme.1]
      exact if_neg h.scheme.2
    rw [if_pos hscheme, if_pos h.host, htext, hsplit]
    dsimp only
    rw [if_pos hok, hfound, hpath]

theorem split_of_host {text : List UInt8} (h : getHost text ≠ [])
    : ∃ (scheme : List UInt8) (b : Authority) (rest : List UInt8),
        split text = (true, (.scheme, scheme) :: (b.parts ++ splitPath rest))
          ∧ 58 ∉ scheme ∧ 47 ∉ scheme ∧ 47 ∉ b.text ∧ (rest = [] ∨ rest.head? = some 47) := by
  have hnone (rest : List UInt8) : (splitPath rest).get .host = [] := by
    unfold Parts.get
    rw [find_splitPath (by decide)]
    rfl
  unfold getHost getPart split at h
  unfold split
  cases hcolon : cut 58 text with
  | none =>
    rw [hcolon] at h
    exact absurd (hnone text) h
  | some found =>
    obtain ⟨scheme, rest⟩ := found
    obtain ⟨rfl, hscheme⟩ := cut_some hcolon
    rw [hcolon] at h
    dsimp only at h ⊢
    by_cases hslash : 47 ∈ scheme
    . rw [if_pos hslash] at h
      exact absurd (hnone _) h
    . rw [if_neg hslash] at h ⊢
      by_cases hslashes : [47, 47] <+: rest
      . obtain ⟨s, rfl⟩ := hslashes
        by_cases hs : s = []
        . rw [hs] at h
          exact absurd rfl h
        . obtain ⟨b, hsplit, -, htext, -⟩ := splitScheme_authority scheme hs
          refine ⟨scheme, b, _, hsplit, hscheme, hslash, ?_, ?_⟩
          . rw [htext]
            intro hmem
            have hne := @List.mem_takeWhile_imp _ (fun c : UInt8 => decide (c ≠ 47)) s 47 hmem
            contradiction
          . have hhead := List.head?_dropWhile_not (fun c : UInt8 => decide (c ≠ 47)) s
            cases hrest : s.dropWhile (· ≠ 47) with
            | nil => exact Or.inl rfl
            | cons c rest =>
              rw [hrest] at hhead
              have hc : c = 47 := by simpa using hhead
              rw [hc]
              exact Or.inr rfl
      . rw [splitScheme_plain scheme hslashes] at h
        dsimp only at h
        rw [if_pos rfl, get_cons_ne (by decide)] at h
        exact absurd (hnone rest) h

theorem mem_text_of_mem_get {b : Authority} {part : Part} {c : UInt8} (h : c ∈ Parts.get b.parts part) : c ∈ b.text := by
  obtain ⟨user, host, port⟩ := b
  unfold Parts.get at h
  rw [find_authority] at h
  unfold Authority.text Authority.login
  cases part with
  | host =>
    exact List.mem_append_left _ (List.mem_append_right _ h)
  | port =>
    cases port with
    | none => contradiction
    | some port => exact List.mem_append_right _ (List.mem_cons_of_mem _ h)
  | user =>
    cases user with
    | none => contradiction
    | some login => simp [show c ∈ login.1 from h]
  | password =>
    obtain _ | ⟨user, _ | password⟩ := user
    . contradiction
    . contradiction
    . simp [separated, show c ∈ password from h]
  | _ => contradiction

/-
The query can be set on a host with a path.
-/
theorem resplits_put {text query : List UInt8} (h : OnHost text) (hquery : query ≠ []) (hhash : 35 ∉ query)
    : (split text).1 = true ∧ Resplits ((split text).2.put .query query)
        ∧ (split text).2.get .query = URL.getQuery text := by
  obtain ⟨scheme, b, rest, hsplit, hcolon, hslash, hauthority, -⟩ := split_of_host h.host
  have hok : (split text).1 = true := by rw [hsplit]
  have hget (part : Part) : getPart part text = (split text).2.get part := by
    unfold getPart
    dsimp only
    rw [hok]
    rfl
  have hhost := h.host
  have hpath := h.path
  unfold getHost at hhost
  unfold getPath at hpath
  rw [hget] at hhost hpath
  have hscheme : (split text).2.get .scheme = scheme := by
    rw [hsplit]
    rfl
  refine ⟨hok, ⟨?_, ?_, ?_, ?_, ?_⟩, (hget .query).symm⟩
  . rw [get_put_of_ne (by decide), hscheme]
    exact ⟨hcolon, hslash⟩
  . rw [get_put_of_ne (by decide)]
    exact hhost
  . intro part hpart
    have hplace : part ≠ .query ∧ Part.scheme ≠ part ∧ part ∈ [Part.scheme, .user, .password, .host, .port] := by
      revert part
      decide
    rw [get_put_of_ne hplace.1, hsplit, get_cons_ne hplace.2.1]
    intro hmem
    unfold Parts.get at hmem
    rw [find_append, find_splitPath hplace.2.2, Option.or_none] at hmem
    exact hauthority (mem_text_of_mem_get hmem)
  . rw [get_put_of_ne (by decide)]
    refine ⟨hpath, ?_⟩
    rw [hsplit, get_cons_ne (by decide), get_append _ _ _ (find_authority .path b)]
    exact splitPath_path rest
  . rw [get_put_self]
    exact ⟨hquery, hhash⟩

theorem params_ne_nil (text : List UInt8) : ∀ e ∈ (params text).entries, e.1 ≠ [] := by
  unfold params decodeProps
  generalize Text.split (URL.getQuery text) 38 false 0 = fields
  have hloop (fields : List (List UInt8)) (props : PropertyList) (hprops : ∀ e ∈ props.entries, e.1 ≠ [])
      : ∀ e ∈ (fields.foldl (decodeParam true) props).entries, e.1 ≠ [] := by
    induction fields generalizing props with
    | nil => exact hprops
    | cons field fields ih =>
      apply ih
      unfold decodeParam
      cases cut 61 field with
      | none => exact hprops
      | some found =>
        dsimp only
        split
        . next hname =>
          intro e he
          rcases PropertyList.mem_add.mp he with heq | ⟨hmem, -⟩
          . exact ne_of_eq_of_ne (congrArg Prod.fst heq) hname
          . exact hprops e hmem
        . exact hprops
  exact hloop fields .empty fun e he => absurd he List.not_mem_nil

theorem hash_not_mem_encodeProps (props : PropertyList) : 35 ∉ encodeProps props f := by
  have hloop (es : List (List UInt8 × List UInt8)) (r : List UInt8) (hr : 35 ∉ r) : 35 ∉ es.foldl (encodeLoop f) r := by
    induction es generalizing r with
    | nil => exact hr
    | cons e es ih =>
      apply ih
      unfold encodeLoop encodeEntry
      rw [List.mem_append, List.mem_append, List.mem_append, List.mem_singleton, not_or, not_or, not_or]
      refine ⟨?_, ⟨not_mem_encode (by decide) (by decide) (by decide) _, by decide⟩,
        not_mem_encode (by decide) (by decide) (by decide) _⟩
      split
      . rw [List.mem_append, not_or]
        exact ⟨hr, by decide⟩
      . exact hr
  exact hloop props.entries [] List.not_mem_nil

theorem encodeProps_ne_nil {props : PropertyList} {e : List UInt8 × List UInt8} (h : e ∈ props.entries)
    : encodeProps props f ≠ [] := by
  have hfields : ∀ t ∈ props.entries.map (encodeEntry f), t ≠ [] :=
    List.forall_mem_map.mpr fun e _ => encodeEntry_ne_nil e
  rw [encodeProps_eq, ne_eq, Text.intercalate_eq_nil_iff [38] hfields, List.map_eq_nil_iff]
  exact List.ne_nil_of_mem h

-- The parameters with the new one
def updated (text name value : List UInt8) : List (List UInt8 × List UInt8) := ((params text).add name value).entries

theorem mem_updated {text name value : List UInt8} {e : List UInt8 × List UInt8}
    : e ∈ updated text name value ↔ e = (name, value) ∨ (e ∈ (params text).entries ∧ e.1 ≠ name) :=
  PropertyList.mem_add

section Set

variable {text name value : List UInt8}

theorem getQuery_set (h : OnHost text)
    : URL.getQuery (setQueryParameter text name value) = encodeProps ((params text).add name value) true := by
  have hne := encodeProps_ne_nil (f := true) (mem_updated.mpr (Or.inl rfl) : (name, value) ∈ updated text name value)
  obtain ⟨hok, hresplits, hquery⟩ := resplits_put h hne (hash_not_mem_encodeProps _)
  have hset : setQueryParameter text name value
      = ofParts ((split text).2.put .query (encodeProps ((params text).add name value) true)) := by
    unfold setQueryParameter params
    dsimp only
    rw [hok, hquery]
    rfl
  rw [hset, hresplits.getQuery, get_put_self]

theorem mem_params_set (h : OnHost text) (hname : name ≠ []) {n v : List UInt8}
    : (n, v) ∈ (params (setQueryParameter text name value)).entries
        ↔ ∃ e ∈ updated text name value, encode e.1 true = n ∧ e.2 = v := by
  have hnames : ∀ e ∈ ((params text).add name value).entries, e.1 ≠ [] := by
    intro e he
    rcases PropertyList.mem_add.mp he with heq | ⟨hmem, -⟩
    . exact ne_of_eq_of_ne (congrArg Prod.fst heq) hname
    . exact params_ne_nil text e hmem
  unfold params at hnames ⊢
  rw [getQuery_set h]
  exact mem_decodeProps hnames

theorem getQueryParameter_set (h : OnHost text)
    : getQueryParameter (setQueryParameter text name value) name
        = (SortedMap.find name (params (setQueryParameter text name value)).entries).getD [] := by
  have hne := encodeProps_ne_nil (f := true) (mem_updated.mpr (Or.inl rfl) : (name, value) ∈ updated text name value)
  unfold getQueryParameter getQueryProps params
  dsimp only
  rw [getQuery_set h, if_neg hne]

end Set

/-
What setting a parameter is for: it has the value, and all others keep theirs.
-/
structure Updates (text name value : List UInt8) : Prop where
  get : getQueryParameter (setQueryParameter text name value) name = value
  others : ∀ e ∈ (params text).entries, e.1 ≠ name → e ∈ (params (setQueryParameter text name value)).entries

-- Names are unchanged by encoding, or have no value and take each other's places, with the one that is set in front.
def Settable (name value : List UInt8) (es : List (List UInt8 × List UInt8)) : Prop :=
  ∀ e ∈ es, encode e.1 true = e.1
    ∨ (value = [] ∧ e.2 = [] ∧ (e.1 = name ∨ ∃ e' ∈ es, encode e'.1 true = e.1 ∧ e'.2 = []))

theorem updates_iff {text name value : List UInt8} (h : OnHost text) (hname : name ≠ [])
    : Updates text name value ↔ Settable name value (updated text name value) := by
  constructor
  . intro hu
    have hclosed : ∀ e ∈ updated text name value, (value = [] ∧ e.1 = name)
        ∨ ∃ e' ∈ updated text name value, encode e'.1 true = e.1 ∧ e'.2 = e.2 := by
      intro e he
      rcases mem_updated.mp he with rfl | ⟨hmem, hne⟩
      . have hget := hu.get
        rw [getQueryParameter_set h] at hget
        cases hfind : SortedMap.find name (params (setQueryParameter text name value)).entries with
        | none =>
          rw [hfind] at hget
          exact Or.inl ⟨hget.symm, rfl⟩
        | some v =>
          rw [hfind] at hget
          have hmem := SortedMap.mem_of_find hfind
          rw [show v = value from hget] at hmem
          exact Or.inr ((mem_params_set h hname).mp hmem)
      . exact Or.inr ((mem_params_set h hname).mp (hu.others e hmem hne))
    intro e he
    rcases unchanged_of_closed hclosed e he with hsame | ⟨x, hx, ⟨hvalue, hxname⟩, hxvalue⟩
    . exact Or.inl hsame
    . have hnone : e.2 = [] := by
        rcases mem_updated.mp hx with rfl | ⟨-, hne⟩
        . exact hxvalue.symm.trans hvalue
        . exact absurd hxname hne
      refine Or.inr ⟨hvalue, hnone, (hclosed e he).imp And.right ?_⟩
      rw [hnone]
      exact id
  . intro hs
    have hkept : ∀ e ∈ updated text name value, e.1 ≠ name → e ∈ (params (setQueryParameter text name value)).entries := by
      intro e he hne
      apply (mem_params_set h hname).mpr
      rcases hs e he with hsame | ⟨-, hnone, hplace⟩
      . exact ⟨e, he, hsame, rfl⟩
      . rw [hnone]
        exact hplace.resolve_left hne
    refine ⟨?_, fun e he hne => hkept e (mem_updated.mpr (Or.inr ⟨he, hne⟩)) hne⟩
    have hset : (name, value) ∈ updated text name value := mem_updated.mpr (Or.inl rfl)
    rw [getQueryParameter_set h]
    rcases hs _ hset with hsame | ⟨hvalue, -, -⟩
    . have hmem := (mem_params_set h hname).mpr ⟨_, hset, hsame, rfl⟩
      rw [SortedMap.find_of_mem List.lt_irrefl (params _).sorted hmem]
      rfl
    . cases hfind : SortedMap.find name (params (setQueryParameter text name value)).entries with
      | none => exact hvalue.symm
      | some v =>
        obtain ⟨e, he, hen, hev⟩ := (mem_params_set h hname).mp (SortedMap.mem_of_find hfind)
        rcases hs e he with hsame | ⟨-, hnone, -⟩
        . have heq : e.1 = name := hsame.symm.trans hen
          rcases mem_updated.mp he with rfl | ⟨-, hne⟩
          . exact hev.symm
          . exact absurd heq hne
        . rw [hvalue, ← hev]
          exact hnone

/--
A list comes back if and only if encoding leaves its names as they are. A parameter that is set can be read, with the
others as they were, if and only if encoding leaves all of their names as they are, apart from parameters without a value
that are taken for each other.
-/
theorem query_kept_iff (props : PropertyList) (f : Bool) (hprops : ∀ e ∈ props.entries, e.1 ≠ [])
    (text name value : List UInt8) (htext : OnHost text) (hname : name ≠ [])
    : (decodeProps (encodeProps props f) .empty f = props ↔ ∀ e ∈ props.entries, encode e.1 f = e.1)
        ∧ (Updates text name value ↔ Settable name value (updated text name value)) :=
  ⟨decodeProps_iff hprops, updates_iff htext hname⟩

-- `http://h/`
def rootURL : List UInt8 := [104, 116, 116, 112, 58, 47, 47, 104, 47]

theorem onHost_root : OnHost rootURL := by
  constructor
  . decide
  . decide

def single (name value : List UInt8) : PropertyList := .add .empty name value

theorem query_kept_iff_plain
    : decodeProps (encodeProps (single [110] [32, 38]) true) .empty true = single [110] [32, 38]
        ∧ Updates rootURL [110] [32, 38] := by
  have hkept := query_kept_iff (single [110] [32, 38]) true (List.forall_mem_singleton.mpr (by decide))
    rootURL [110] [32, 38] onHost_root (by decide)
  exact ⟨hkept.1.mpr (List.forall_mem_singleton.mpr rfl), hkept.2.mpr (List.forall_mem_singleton.mpr (Or.inl rfl))⟩

-- The name `a b`
theorem not_query_kept
    : ¬((∀ props : PropertyList, (∀ e ∈ props.entries, e.1 ≠ []) → decodeProps (encodeProps props true) .empty true = props)
        ∨ ∀ text name value, OnHost text → name ≠ [] → Updates text name value) := by
  rintro (hall | hall)
  . have hnames : ∀ e ∈ (single [97, 32, 98] [99]).entries, e.1 ≠ [] := List.forall_mem_singleton.mpr (by decide)
    have hsame := (decodeProps_iff hnames).mp (hall _ hnames) ([97, 32, 98], [99]) List.mem_cons_self
    contradiction
  . have hname : ([97, 32, 98] : List UInt8) ≠ [] := List.cons_ne_nil _ _
    have hset := (updates_iff onHost_root hname).mp (hall rootURL [97, 32, 98] [99] onHost_root hname)
    rcases hset ([97, 32, 98], [99]) List.mem_cons_self with hsame | ⟨hnil, -, -⟩
    . contradiction
    . contradiction

end Update

end URL
end Web
end ObTools
