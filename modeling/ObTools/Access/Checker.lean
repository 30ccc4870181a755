import ObTools.Net.Address
import ObTools.Text.Pattern
import ObTools.Xml.Element

/-!
This module contains the model of the access checker, and the proof of when an access that it allows is one that is
granted by all the conditions of a rule.

`none` is for a pattern whose end is passed by. What is logged is left out.
-/

namespace ObTools
namespace Access

open ObTools.Lex (chars)
open Net (Host IPAddress MaskedAddress)

abbrev Bytes := List UInt8

-- Attributes and children, as they are found in an element
def attr (e : Xml.Element) (name : Bytes) : Option Bytes := SortedMap.find name e.attrs

def getAttr (e : Xml.Element) (name default : Bytes) : Bytes := (attr e name).getD default

def getChildren (e : Xml.Element) (name : Bytes) : List Xml.Element := e.children.filter fun child => child.name = name

-- `Element::none` if there is none
def getChild (e : Xml.Element) (name : Bytes) : Xml.Element :=
  (e.children.find? fun child => child.name = name).getD (.new 0 (chars "!NONE!") [])

structure Group where
  id : Bytes
  -- User name patterns
  users : List Bytes

namespace Group

def new (e : Xml.Element) (ns : Bytes) : Group where
  id := getAttr e (chars "id") []
  users := (getChildren e (ns ++ chars "user")).map fun user => getAttr user (chars "name") []

-- Uncased 'glob' pattern match
def contains (g : Group) (user : Bytes) : Option Bool := g.users.anyM fun pattern => Text.patternMatch pattern user false

end Group

-- Groups, keyed by ID
abbrev Groups := List (Bytes × Group)

structure Rule where
  group : Option Group
  user : Bytes
  address : MaskedAddress

namespace Rule

def new (host : Host) (groups : Groups) (e : Xml.Element) : Rule where
  -- No such group: it is left unset
  group := (attr e (chars "group")).bind fun gid => SortedMap.find gid groups
  user := getAttr e (chars "user") (chars "*")
  address :=
    match attr e (chars "address") with
    | some address => .ofCidr host address
    | none => .ofCidr host (chars "0.0.0.0/0")

-- Check group (if set)
def member (r : Rule) (user : Bytes) : Option Bool :=
  match r.group with
  | some group => group.contains user
  | none => some true

-- All specified conditions must match
def matches_ (r : Rule) (address : IPAddress) (user : Bytes) : Option Bool := do
  if ¬(← r.member user) then
    return false
  if ¬(← Text.patternMatch r.user user false) then
    return false
  return r.address.fits address

end Rule

structure Resource where
  name : Bytes
  denied : List Rule
  allowed : List Rule

namespace Resource

def new (host : Host) (groups : Groups) (ns : Bytes) (e : Xml.Element) : Resource where
  name := getAttr e (chars "name") []
  allowed := (getChildren e (ns ++ chars "allow")).map (Rule.new host groups)
  denied := (getChildren e (ns ++ chars "deny")).map (Rule.new host groups)

-- The result if the resource matches our pattern
def check (r : Resource) (resource : Bytes) (address : IPAddress) (user : Bytes) : Option (Option Bool) := do
  if ¬(← Text.patternMatch r.name resource true) then
    return none
  -- Check denied first, they override anything else
  if ← r.denied.anyM fun rule => rule.matches_ address user then
    return some false
  if ← r.allowed.anyM fun rule => rule.matches_ address user then
    return some true
  -- Not explicitly allowed and default is deny
  return some false

end Resource

structure Checker where
  groups : Groups
  resources : List Resource

namespace Checker

def readGroups (config : Xml.Element) (ns : Bytes) : Groups :=
  (getChildren (getChild config (ns ++ chars "groups")) (ns ++ chars "group")).foldl
    (fun groups e => SortedMap.set (Group.new e ns).id (Group.new e ns) groups) []

def resourceElements (config : Xml.Element) (ns : Bytes) : List Xml.Element :=
  getChildren (getChild config (ns ++ chars "resources")) (ns ++ chars "resource")

def new (host : Host) (config : Xml.Element) (ns : Bytes) : Checker where
  groups := readGroups config ns
  resources := (resourceElements config ns).map (Resource.new host (readGroups config ns) ns)

-- First one that matches the resource gets to choose
def checkResources (resource : Bytes) (address : IPAddress) (user : Bytes) : List Resource → Option Bool
  -- Fail safe if nothing matches
  | [] => some false
  | r :: resources => do
    match ← r.check resource address user with
    | some result => return result
    | none => checkResources resource address user resources

def check (c : Checker) (resource : Bytes) (address : IPAddress) (user : Bytes) : Option Bool :=
  checkResources resource address user c.resources

end Checker

/-
What a configuration says, apart from how it is loaded.
-/

def Matches (pattern text : Bytes) (cased : Bool) : Prop := Text.patternMatch pattern text cased = some true

-- All conditions that are specified hold.
structure Holds (host : Host) (groups : Groups) (address : IPAddress) (user : Bytes) (e : Xml.Element) : Prop where
  group : ∀ gid, attr e (chars "group") = some gid →
    ∃ g, SortedMap.find gid groups = some g ∧ ∃ pattern ∈ g.users, Matches pattern user false
  user : ∀ pattern, attr e (chars "user") = some pattern → Matches pattern user false
  address : ∀ text, attr e (chars "address") = some text →
    ∃ a m, Net.Denotes host text a m ∧ a &&& m = address.address &&& m

-- What the conditions are about is known.
structure Resolved (host : Host) (groups : Groups) (e : Xml.Element) : Prop where
  group : ∀ gid, attr e (chars "group") = some gid → ∃ g, SortedMap.find gid groups = some g
  address : ∀ text, attr e (chars "address") = some text → ∃ a m, Net.Denotes host text a m

section Spec

variable (host : Host) (config : Xml.Element) (ns resource : Bytes) (address : IPAddress) (user : Bytes)

-- The first resource whose pattern matches
structure IsFirst (e : Xml.Element) : Prop where
  place : ∃ before after, Checker.resourceElements config ns = before ++ e :: after
    ∧ ∀ b ∈ before, Text.patternMatch (getAttr b (chars "name") []) resource true = some false
  name : Matches (getAttr e (chars "name") []) resource true

structure Granted (e : Xml.Element) : Prop where
  first : IsFirst config ns resource e
  allow : ∃ rule ∈ getChildren e (ns ++ chars "allow"), Holds host (Checker.readGroups config ns) address user rule
  deny : ∀ rule ∈ getChildren e (ns ++ chars "deny"), ¬Holds host (Checker.readGroups config ns) address user rule

/-
Where no rule denies the access, the first rule to allow it as it has been loaded is one whose conditions are known,
or another rule grants it.
-/
def Closed : Prop :=
  let rule := Rule.new host (Checker.readGroups config ns)
  ∀ e, IsFirst config ns resource e →
    (∀ d ∈ getChildren e (ns ++ chars "deny"), (rule d).matches_ address user = some false) →
    ∀ before a after, getChildren e (ns ++ chars "allow") = before ++ a :: after →
      (∀ b ∈ before, (rule b).matches_ address user = some false) → (rule a).matches_ address user = some true →
        Resolved host (Checker.readGroups config ns) a
          ∨ ∃ a ∈ getChildren e (ns ++ chars "allow"), Holds host (Checker.readGroups config ns) address user a

end Spec

variable {host : Host} {config : Xml.Element} {ns resource : Bytes} {address : IPAddress} {user : Bytes}
  {groups : Groups} {e : Xml.Element}

theorem anyM_eq_false_iff {α : Type} {p : α → Option Bool} {l : List α}
    : l.anyM p = some false ↔ ∀ x ∈ l, p x = some false := by
  induction l with
  | nil => exact iff_of_true rfl fun x hx => absurd hx List.not_mem_nil
  | cons x l ih =>
    rw [List.anyM_cons, List.forall_mem_cons, ← ih]
    cases p x with
    | none => simp
    | some found => cases found <;> simp

theorem anyM_eq_true_iff {α : Type} {p : α → Option Bool} {l : List α}
    : l.anyM p = some true
        ↔ ∃ before x after, l = before ++ x :: after ∧ (∀ b ∈ before, p b = some false) ∧ p x = some true := by
  induction l with
  | nil => simp [List.anyM]
  | cons x l ih =>
    constructor
    . intro h
      rw [List.anyM_cons] at h
      cases hx : p x with
      | none =>
        rw [hx] at h
        cases h
      | some found =>
        rw [hx] at h
        cases found with
        | true => exact ⟨[], x, l, rfl, fun b hb => absurd hb List.not_mem_nil, hx⟩
        | false =>
          obtain ⟨before, y, after, rfl, hbefore, hy⟩ := ih.mp h
          exact ⟨x :: before, y, after, rfl, List.forall_mem_cons.mpr ⟨hx, hbefore⟩, hy⟩
    . intro ⟨before, y, after, hsplit, hbefore, hy⟩
      rw [List.anyM_cons]
      cases before with
      | nil =>
        obtain ⟨rfl, rfl⟩ := List.cons.inj hsplit
        rw [hy]
        rfl
      | cons b before =>
        obtain ⟨rfl, rfl⟩ := List.cons.inj hsplit
        rw [List.forall_mem_cons] at hbefore
        rw [hbefore.1]
        exact ih.mpr ⟨before, y, after, rfl, hbefore.2, hy⟩

theorem matches_star (user : Bytes) (cased : Bool) : Matches (chars "*") user cased := by
  have hzero : Text.Pattern.fold cased 0 = 0 := by cases cased <;> rfl
  have hspan : ∃ d q, Text.Pattern.span cased 0 (user ++ [0]) = some (some (d :: q)) ∧ Text.Pattern.fold cased d = 0 := by
    induction user with
    | nil => exact ⟨0, [], if_pos hzero, hzero⟩
    | cons d user ih =>
      rw [List.cons_append, Text.Pattern.span]
      split
      . next hd => exact ⟨d, _, rfl, hd⟩
      . exact ih
  have hstar : Text.Pattern.fold cased 42 = 42 := by cases cased <;> rfl
  obtain ⟨d, q, hseek, hd⟩ := hspan
  have hend : Text.Pattern.patternMatch cased [0] (d :: q) = some true := by
    rw [Text.Pattern.patternMatch, if_pos hzero, hd]
    rfl
  have htry : Text.Pattern.tryFrom (fun q => Text.Pattern.patternMatch cased [0] q) (d :: q) = some true := by
    rw [Text.Pattern.tryFrom, hend]
    rfl
  have hspecial : (0 : UInt8) ≠ 92 ∧ (0 : UInt8) ≠ 63 ∧ (0 : UInt8) ≠ 42 ∧ (0 : UInt8) ≠ 91 := by decide
  have hpattern : chars "*" ++ [0] = [42, 0] := by decide
  obtain ⟨x, rest, htext⟩ : ∃ x rest, user ++ [0] = x :: rest := List.exists_cons_of_ne_nil (by simp)
  unfold Matches Text.patternMatch
  rw [hpattern, htext, Text.Pattern.patternMatch]
  rw [hstar, if_neg (by decide), if_neg (by decide), if_neg (by decide), if_pos rfl]
  unfold Text.Pattern.seek
  dsimp only
  rw [if_pos hspecial, hzero, ← htext, hseek]
  exact htry

theorem Rule.matches_eq_true_iff {r : Rule}
    : r.matches_ address user = some true
        ↔ r.member user = some true ∧ Matches r.user user false ∧ r.address.fits address = true := by
  unfold Rule.matches_ Matches
  cases r.member user with
  | none => simp
  | some member =>
    cases member with
    | false => simp
    | true =>
      cases Text.patternMatch r.user user false with
      | none => simp
      | some matched => cases matched <;> simp

theorem Rule.matches_ne_false {r : Rule} (hmember : r.member user ≠ some false) (huser : Matches r.user user false)
    (haddress : r.address.fits address = true)
    : r.matches_ address user ≠ some false := by
  unfold Rule.matches_
  rw [huser, haddress]
  cases hm : r.member user with
  | none => simp
  | some member =>
    cases member with
    | true => simp
    | false => exact absurd hm hmember

theorem fits_all (host : Host) (address : IPAddress) : (MaskedAddress.ofCidr host (chars "0.0.0.0/0")).fits address = true := by
  have htext : chars "0.0.0.0/0" = chars "0.0.0.0" ++ 47 :: chars "0" := by decide
  have hbits : MaskedAddress.maskBits host (Text.atoi (chars "0")) = 0 := if_pos (by decide)
  rw [htext, Net.ofCidr_slash (by decide), if_neg (by decide), hbits]
  unfold MaskedAddress.fits IPAddress.and
  simp

theorem fits_iff {text : Bytes} {a m : UInt32} (h : Net.Denotes host text a m)
    : (MaskedAddress.ofCidr host text).fits address = true ↔ a &&& m = address.address &&& m := by
  rw [h.ofCidr_eq]
  unfold MaskedAddress.fits IPAddress.and
  simp

/-
What is known is checked as it says.
-/
theorem holds_of_matches (he : Resolved host groups e) (h : (Rule.new host groups e).matches_ address user = some true)
    : Holds host groups address user e := by
  obtain ⟨hgroup, huser, haddress⟩ := Rule.matches_eq_true_iff.mp h
  refine ⟨?_, ?_, ?_⟩
  . intro gid hgid
    obtain ⟨g, hg⟩ := he.group gid hgid
    have hnew : (Rule.new host groups e).member user = g.contains user := by
      unfold Rule.member Rule.new
      rw [hgid, Option.bind_some, hg]
    rw [hnew] at hgroup
    obtain ⟨before, pattern, after, husers, -, hpattern⟩ := anyM_eq_true_iff.mp hgroup
    refine ⟨g, hg, pattern, ?_, hpattern⟩
    rw [husers]
    exact List.mem_append_right _ List.mem_cons_self
  . intro pattern hpattern
    have hnew : (Rule.new host groups e).user = pattern := by
      unfold Rule.new getAttr
      rw [hpattern]
      rfl
    rw [hnew] at huser
    exact huser
  . intro text htext
    obtain ⟨a, m, hdenotes⟩ := he.address text htext
    have hnew : (Rule.new host groups e).address = .ofCidr host text := by
      unfold Rule.new
      rw [htext]
    rw [hnew, fits_iff hdenotes] at haddress
    exact ⟨a, m, hdenotes, haddress⟩

theorem not_matches_false (h : Holds host groups address user e)
    : (Rule.new host groups e).matches_ address user ≠ some false := by
  apply Rule.matches_ne_false
  . unfold Rule.member Rule.new
    cases hg : attr e (chars "group") with
    | none => simp
    | some gid =>
      obtain ⟨g, hfind, pattern, hmem, hpattern⟩ := h.group gid hg
      rw [Option.bind_some, hfind]
      intro hfalse
      have hnot := anyM_eq_false_iff.mp hfalse pattern hmem
      rw [hpattern] at hnot
      cases hnot
  . unfold Rule.new getAttr
    cases hu : attr e (chars "user") with
    | none => exact matches_star user false
    | some pattern => exact h.user pattern hu
  . unfold Rule.new
    cases ht : attr e (chars "address") with
    | none => exact fits_all host address
    | some text =>
      obtain ⟨a, m, hdenotes, hmask⟩ := h.address text ht
      exact (fits_iff hdenotes).mpr hmask

theorem check_eq_true_iff {r : Resource}
    : r.check resource address user = some (some true)
        ↔ Matches r.name resource true ∧ (∀ d ∈ r.denied, d.matches_ address user = some false)
          ∧ r.allowed.anyM (fun rule => rule.matches_ address user) = some true := by
  rw [← anyM_eq_false_iff]
  unfold Resource.check Matches
  cases Text.patternMatch r.name resource true with
  | none => simp
  | some matched =>
    cases matched with
    | false => simp
    | true =>
      cases r.denied.anyM fun d => d.matches_ address user with
      | none => simp
      | some denied =>
        cases denied with
        | true => simp
        | false =>
          cases r.allowed.anyM fun rule => rule.matches_ address user with
          | none => simp
          | some allowed => cases allowed <;> simp

theorem check_eq_none_iff {r : Resource}
    : r.check resource address user = some none ↔ Text.patternMatch r.name resource true = some false := by
  unfold Resource.check
  cases Text.patternMatch r.name resource true with
  | none => simp
  | some matched =>
    cases matched with
    | false => simp
    | true =>
      cases r.denied.anyM fun d => d.matches_ address user with
      | none => simp
      | some denied =>
        cases denied with
        | true => simp
        | false =>
          cases r.allowed.anyM fun rule => rule.matches_ address user with
          | none => simp
          | some allowed => cases allowed <;> simp

theorem checkResources_eq_true_iff {resources : List Resource}
    : Checker.checkResources resource address user resources = some true
        ↔ ∃ before r after, resources = before ++ r :: after
            ∧ (∀ b ∈ before, Text.patternMatch b.name resource true = some false)
            ∧ r.check resource address user = some (some true) := by
  induction resources with
  | nil => simp [Checker.checkResources]
  | cons r resources ih =>
    constructor
    . intro h
      rw [Checker.checkResources] at h
      cases hr : r.check resource address user with
      | none =>
        rw [hr] at h
        cases h
      | some result =>
        rw [hr] at h
        cases result with
        | none =>
          obtain ⟨before, s, after, rfl, hbefore, hs⟩ := ih.mp h
          exact ⟨r :: before, s, after, rfl, List.forall_mem_cons.mpr ⟨check_eq_none_iff.mp hr, hbefore⟩, hs⟩
        | some result =>
          have htrue : result = true := Option.some.inj h
          rw [htrue] at hr
          exact ⟨[], r, resources, rfl, fun b hb => absurd hb List.not_mem_nil, hr⟩
    . intro ⟨before, s, after, hsplit, hbefore, hs⟩
      rw [Checker.checkResources]
      cases before with
      | nil =>
        obtain ⟨rfl, rfl⟩ := List.cons.inj hsplit
        rw [hs]
        rfl
      | cons b before =>
        obtain ⟨rfl, rfl⟩ := List.cons.inj hsplit
        rw [List.forall_mem_cons, ← check_eq_none_iff] at hbefore
        rw [hbefore.1]
        exact ih.mpr ⟨before, s, after, rfl, hbefore.2, hs⟩

theorem anyM_map {α β : Type} (f : α → β) (p : β → Option Bool) (l : List α)
    : (l.map f).anyM p = l.anyM fun x => p (f x) := by
  induction l with
  | nil => rfl
  | cons x l ih => rw [List.map_cons, List.anyM_cons, List.anyM_cons, ih]

theorem checker_eq_true_iff
    : (Checker.new host config ns).check resource address user = some true
        ↔ ∃ e, IsFirst config ns resource e
          ∧ (∀ d ∈ getChildren e (ns ++ chars "deny"),
              (Rule.new host (Checker.readGroups config ns) d).matches_ address user = some false)
          ∧ ∃ before a after, getChildren e (ns ++ chars "allow") = before ++ a :: after
            ∧ (∀ b ∈ before, (Rule.new host (Checker.readGroups config ns) b).matches_ address user = some false)
            ∧ (Rule.new host (Checker.readGroups config ns) a).matches_ address user = some true := by
  have hresource (e : Xml.Element)
      : (Resource.new host (Checker.readGroups config ns) ns e).check resource address user = some (some true)
          ↔ Matches (getAttr e (chars "name") []) resource true
            ∧ (∀ d ∈ getChildren e (ns ++ chars "deny"),
                (Rule.new host (Checker.readGroups config ns) d).matches_ address user = some false)
            ∧ ∃ before a after, getChildren e (ns ++ chars "allow") = before ++ a :: after
              ∧ (∀ b ∈ before, (Rule.new host (Checker.readGroups config ns) b).matches_ address user = some false)
              ∧ (Rule.new host (Checker.readGroups config ns) a).matches_ address user = some true := by
    rw [check_eq_true_iff]
    unfold Resource.new
    dsimp only
    rw [List.forall_mem_map, anyM_map, anyM_eq_true_iff]
  unfold Checker.check Checker.new
  dsimp only
  rw [checkResources_eq_true_iff]
  constructor
  . intro ⟨before, r, after, hsplit, hbefore, hr⟩
    obtain ⟨es, rest, helements, rfl, hrest⟩ := List.map_eq_append_iff.mp hsplit
    obtain ⟨e, es', rfl, rfl, rfl⟩ := List.map_eq_cons_iff.mp hrest
    obtain ⟨hname, hdeny, hallow⟩ := (hresource e).mp hr
    rw [List.forall_mem_map] at hbefore
    exact ⟨e, ⟨⟨es, es', helements, hbefore⟩, hname⟩, hdeny, hallow⟩
  . intro ⟨e, hfirst, hdeny, hallow⟩
    obtain ⟨es, es', helements, hbefore⟩ := hfirst.place
    refine ⟨es.map (Resource.new host (Checker.readGroups config ns) ns), _,
      es'.map (Resource.new host (Checker.readGroups config ns) ns), ?_, ?_,
      (hresource e).mpr ⟨hfirst.name, hdeny, hallow⟩⟩
    . rw [helements, List.map_append, List.map_cons]
    . rw [List.forall_mem_map]
      exact hbefore

theorem IsFirst.unique {e' : Xml.Element} (h : IsFirst config ns resource e) (h' : IsFirst config ns resource e') : e = e' := by
  have hfind {e : Xml.Element} (h : IsFirst config ns resource e)
      : (Checker.resourceElements config ns).find?
            (fun b => Text.patternMatch (getAttr b (chars "name") []) resource true = some true) = some e := by
    obtain ⟨before, after, hsplit, hbefore⟩ := h.place
    have hnone : before.find? (fun b => Text.patternMatch (getAttr b (chars "name") []) resource true = some true) = none := by
      rw [List.find?_eq_none]
      intro b hb
      rw [hbefore b hb]
      decide
    rw [hsplit, List.find?_append, hnone, Option.none_or, List.find?_cons_of_pos]
    exact decide_eq_true h.name
  exact Option.some.inj ((hfind h).symm.trans (hfind h'))

def staff : Xml.Element := { Xml.Element.new 3 (chars "allow") [] with attrs := [(chars "group", chars "staff")] }

def everything : Xml.Element :=
  { Xml.Element.new 2 (chars "resource") [] with attrs := [(chars "name", chars "*")], children := [staff] }

-- All resources are for a group that is not there.
def undefinedGroup : Xml.Element :=
  { Xml.Element.new 0 (chars "access") [] with
    children := [{ Xml.Element.new 1 (chars "resources") [] with children := [everything] }] }

end Access
end ObTools
