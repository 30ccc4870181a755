import ObTools.Misc.PropertyList
import ObTools.Text.Convert

/-!
This module contains the model of `Web::URL`, and the proof that decoding undoes encoding with `%`.

A URL is given by its text. The XML form of it is an element with sub-elements that have a name and a content only.
-/

namespace ObTools
namespace Web

-- The names of the sub-elements
inductive Part where
  | scheme
  | user
  | password
  | host
  | port
  | path
  | query
  | fragment
deriving DecidableEq, Repr

abbrev Parts := List (Part × List UInt8)

namespace Parts

-- The content of the first child of that name
def find (part : Part) (xml : Parts) : Option (List UInt8) := (xml.find? fun e => e.1 = part).map (·.2)

def get (xml : Parts) (part : Part) : List UInt8 := (xml.find part).getD []

-- The content of the first child of that name, which is made if there is none
def put (part : Part) (content : List UInt8) : Parts → Parts
  | [] => [(part, content)]
  | e :: xml => if e.1 = part then (part, content) :: xml else e :: put part content xml

end Parts

namespace URL

-- The text before the first such character, and what comes behind it
def cut (c : UInt8) (text : List UInt8) : Option (List UInt8 × List UInt8) :=
  if c ∈ text then some (text.takeWhile (· ≠ c), (text.dropWhile (· ≠ c)).tail) else none

-- `c` and the text, if there is any
def prefixed (c : UInt8) (text : List UInt8) : List UInt8 := if text ≠ [] then c :: text else []

-- From the XML format
def ofParts (xml : Parts) : List UInt8 :=
  (if xml.get .scheme ≠ [] then
      xml.get .scheme ++ [58]
        ++ (if xml.get .host ≠ [] then
            [47, 47]
              -- Add username, password if set
              ++ (if xml.get .user ≠ [] then xml.get .user ++ prefixed 58 (xml.get .password) ++ [64] else [])
              ++ xml.get .host
              ++ prefixed 58 (xml.get .port)
          else
            [])
    else
      [])
    -- All URLs have a path
    ++ xml.get .path
    ++ prefixed 63 (xml.get .query)
    ++ prefixed 35 (xml.get .fragment)

-- Username and password before `@`, and the host behind it
def splitUser (host : List UInt8) : Parts × List UInt8 :=
  match cut 64 host with
  | some (login, host) =>
    -- A later `:` is for the port number
    match cut 58 login with
    | some (user, password) => ([(.user, user), (.password, password)], host)
    | none => ([(.user, login)], host)
  | none => ([], host)

def splitHost (host : List UInt8) : Parts :=
  match cut 58 host with
  | some (host, port) => [(.host, host), (.port, port)]
  | none => [(.host, host)]

-- Path, query and fragment, if there is anything left
def splitPath (text : List UInt8) : Parts :=
  if text = [] then
    []
  else
    match cut 63 text with
    | none =>
      match cut 35 text with
      | none => [(.path, text)]
      | some (path, fragment) => [(.path, path), (.fragment, fragment)]
    | some (path, rest) =>
      match cut 35 rest with
      | none => [(.path, path), (.query, rest)]
      | some (query, fragment) => [(.path, path), (.query, query), (.fragment, fragment)]

-- What comes behind the scheme and its `:`
def splitScheme (scheme : List UInt8) : List UInt8 → Bool × Parts
  | 47 :: 47 :: rest =>
    -- Check for empty host
    if rest = [] then
      (false, [(.scheme, scheme)])
    else
      let (user, host) := splitUser (rest.takeWhile (· ≠ 47))
      (true, (.scheme, scheme) :: (user ++ splitHost host ++ splitPath (rest.dropWhile (· ≠ 47))))
  -- No host given - technically invalid, but allowed
  | rest => (true, (.scheme, scheme) :: splitPath rest)

-- Whether successful, and the XML format
def split (text : List UInt8) : Bool × Parts :=
  match cut 58 text with
  -- Scheme must be before `/`
  | some (scheme, rest) => if 47 ∈ scheme then (true, splitPath text) else splitScheme scheme rest
  | none => (true, splitPath text)

def getPart (part : Part) (text : List UInt8) : List UInt8 :=
  let (ok, xml) := split text
  if ok then xml.get part else []

def getScheme : List UInt8 → List UInt8 := getPart .scheme
def getHost : List UInt8 → List UInt8 := getPart .host
def getPath : List UInt8 → List UInt8 := getPart .path
def getQuery : List UInt8 → List UInt8 := getPart .query
def getFragment : List UInt8 → List UInt8 := getPart .fragment

def hexDigit (n : Nat) : UInt8 := UInt8.ofNat (if n < 10 then 48 + n else 55 + n)

-- `%` and two hexadecimal digits
def escape (c : UInt8) : List UInt8 := [37, hexDigit (c.toNat / 16), hexDigit (c.toNat % 16)]

-- `+%!*'();:@&=$,/?#[]`
def reserved : List UInt8 := [43, 37, 33, 42, 39, 40, 41, 59, 58, 64, 38, 61, 36, 44, 47, 63, 35, 91, 93]

def encodeChar (spaceAsPlus : Bool) (c : UInt8) : List UInt8 :=
  -- Check for controls and 8-bit
  if c < 32 ∨ 126 < c then
    escape c
  else if c = 32 then
    if spaceAsPlus then [43] else [37, 50, 48]
  else if c ∈ reserved then
    escape c
  else
    [c]

def encode (s : List UInt8) (spaceAsPlus : Bool) : List UInt8 := s.flatMap (encodeChar spaceAsPlus)

def encodeEntry (spaceAsPlus : Bool) (e : List UInt8 × List UInt8) : List UInt8 :=
  encode e.1 spaceAsPlus ++ [61] ++ encode e.2 spaceAsPlus

def encodeLoop (spaceAsPlus : Bool) (r : List UInt8) (e : List UInt8 × List UInt8) : List UInt8 :=
  (if r ≠ [] then r ++ [38] else r) ++ encodeEntry spaceAsPlus e

def encodeProps (props : Misc.PropertyList) (spaceAsPlus : Bool) : List UInt8 :=
  props.entries.foldl (encodeLoop spaceAsPlus) []

def decode (spaceAsPlus : Bool) : List UInt8 → List UInt8
  | [] => []
  | c :: s =>
    if c = 43 then
      (if spaceAsPlus then 32 else 43) :: decode spaceAsPlus s
    else if c = 37 then
      (Text.xtoi (s.take 2)).toUInt8 :: decode spaceAsPlus (s.drop 2)
    else
      c :: decode spaceAsPlus s
termination_by s => s.length
decreasing_by
  . exact Nat.lt_succ_self _
  . rw [List.length_drop, List.length_cons]
    omega
  . exact Nat.lt_succ_self _

def decodeParam (spaceAsPlus : Bool) (props : Misc.PropertyList) (param : List UInt8) : Misc.PropertyList :=
  match cut 61 param with
  | some (name, value) => if name ≠ [] then props.add name (decode spaceAsPlus value) else props
  | none => props

def decodeProps (s : List UInt8) (props : Misc.PropertyList) (spaceAsPlus : Bool) : Misc.PropertyList :=
  (Text.split s 38 false 0).foldl (decodeParam spaceAsPlus) props

-- The query as a property list, `none` if there is none
def getQueryProps (text : List UInt8) : Option Misc.PropertyList :=
  let query := getQuery text
  if query = [] then none else some (decodeProps query .empty true)

def getQueryParameter (text name : List UInt8) : List UInt8 :=
  match getQueryProps text with
  | some params => (SortedMap.find name params.entries).getD []
  | none => []

def setQueryParameter (text name value : List UInt8) : List UInt8 :=
  let (ok, xml) := split text
  if !ok then
    text
  else
    -- Split existing query into props, and set new one
    let params := (decodeProps (xml.get .query) .empty true).add name value
    ofParts (xml.put .query (encodeProps params true))

/-
Decoding undoes encoding.
-/

section Coding

variable {spaceAsPlus : Bool}

theorem value_hexDigit {n : Nat} (h : n < 16) : Digits.value (hexDigit n) = n := by
  have hall : ∀ n : Fin 16, Digits.value (hexDigit n) = n := by decide
  exact hall ⟨n, h⟩

theorem xtoi_hexDigits (c : UInt8)
    : (Text.xtoi [hexDigit (c.toNat / 16), hexDigit (c.toNat % 16)]).toUInt8 = c := by
  have hlt := c.toNat_lt
  have hhigh := value_hexDigit (show c.toNat / 16 < 16 by omega)
  have hlow := value_hexDigit (show c.toNat % 16 < 16 by omega)
  have hdigits : ∀ d ∈ [hexDigit (c.toNat / 16), hexDigit (c.toNat % 16)], Digits.isDigit 16 d = true := by
    refine List.forall_mem_cons.mpr ⟨?_, List.forall_mem_singleton.mpr ?_⟩
    . unfold Digits.isDigit
      rw [hhigh]
      exact decide_eq_true (by omega)
    . unfold Digits.isDigit
      rw [hlow]
      exact decide_eq_true (by omega)
  have hvalue : Digits.ofBytes 16 [hexDigit (c.toNat / 16), hexDigit (c.toNat % 16)] = c.toNat := by
    unfold Digits.ofBytes
    rw [List.foldl_cons, List.foldl_cons, List.foldl_nil, hhigh, hlow]
    omega
  have hscan := Text.scan_digits (Nat.le_refl 16) hdigits (by omega)
  unfold Text.xtoi
  rw [hscan, hvalue]
  apply UInt8.toNat_inj.mp
  simp

theorem decode_plus (s : List UInt8)
    : decode spaceAsPlus (43 :: s) = (if spaceAsPlus then 32 else 43) :: decode spaceAsPlus s := by
  rw [decode]
  rfl

theorem decode_escape (c : UInt8) (s : List UInt8) : decode spaceAsPlus (escape c ++ s) = c :: decode spaceAsPlus s := by
  have htake : ([hexDigit (c.toNat / 16), hexDigit (c.toNat % 16)] ++ s).take 2
      = [hexDigit (c.toNat / 16), hexDigit (c.toNat % 16)] := rfl
  have hdrop : ([hexDigit (c.toNat / 16), hexDigit (c.toNat % 16)] ++ s).drop 2 = s := rfl
  have hcons : escape c ++ s = 37 :: ([hexDigit (c.toNat / 16), hexDigit (c.toNat % 16)] ++ s) := rfl
  rw [hcons, decode, if_neg (by decide), if_pos rfl, htake, hdrop, xtoi_hexDigits]

theorem decode_plain {c : UInt8} (hplus : c ≠ 43) (hpercent : c ≠ 37) (s : List UInt8)
    : decode spaceAsPlus (c :: s) = c :: decode spaceAsPlus s := by
  rw [decode, if_neg hplus, if_neg hpercent]

theorem decode_encodeChar (c : UInt8) (s : List UInt8)
    : decode spaceAsPlus (encodeChar spaceAsPlus c ++ s) = c :: decode spaceAsPlus s := by
  unfold encodeChar
  split
  . exact decode_escape c s
  . split
    . next heq =>
      cases spaceAsPlus with
      | true =>
        rw [heq]
        exact decode_plus s
      | false =>
        rw [heq]
        exact decode_escape 32 s
    . split
      . exact decode_escape c s
      . next hreserved =>
        apply decode_plain
        . rintro rfl
          exact hreserved (by decide)
        . rintro rfl
          exact hreserved (by decide)

theorem decode_encode_append (s rest : List UInt8)
    : decode spaceAsPlus (encode s spaceAsPlus ++ rest) = s ++ decode spaceAsPlus rest := by
  induction s with
  | nil => rfl
  | cons c s ih =>
    unfold encode at ih ⊢
    rw [List.flatMap_cons, List.append_assoc, decode_encodeChar, ih, List.cons_append]

theorem decode_encode_self (s : List UInt8) : decode spaceAsPlus (encode s spaceAsPlus) = s := by
  have h := @decode_encode_append spaceAsPlus s []
  rw [List.append_nil, decode, List.append_nil] at h
  exact h

-- The characters of an encoded text
def IsCoded (spaceAsPlus : Bool) (c : UInt8) : Prop :=
  c = 37 ∨ (spaceAsPlus = true ∧ c = 43) ∨ (32 < c ∧ c ≤ 126 ∧ c ∉ reserved)

instance (c : UInt8) : Decidable (IsCoded spaceAsPlus c) := inferInstanceAs (Decidable (_ ∨ _))

theorem hexDigit_coded {n : Nat} (h : n < 16) : IsCoded spaceAsPlus (hexDigit n) := by
  have hall : ∀ n : Fin 16, 32 < hexDigit n ∧ hexDigit n ≤ 126 ∧ hexDigit n ∉ reserved := by decide
  exact Or.inr (Or.inr (hall ⟨n, h⟩))

theorem escape_coded (c : UInt8) : ∀ d ∈ escape c, IsCoded spaceAsPlus d := by
  have hlt := c.toNat_lt
  refine List.forall_mem_cons.mpr ⟨Or.inl rfl, List.forall_mem_cons.mpr ⟨?_, List.forall_mem_singleton.mpr ?_⟩⟩
  . exact hexDigit_coded (by omega)
  . exact hexDigit_coded (by omega)

theorem encodeChar_coded (c : UInt8) : ∀ d ∈ encodeChar spaceAsPlus c, IsCoded spaceAsPlus d := by
  unfold encodeChar
  split
  . exact escape_coded c
  . next hprintable =>
    rw [not_or, UInt8.not_lt, UInt8.not_lt] at hprintable
    split
    . cases spaceAsPlus with
      | true => exact List.forall_mem_singleton.mpr (Or.inr (Or.inl ⟨rfl, rfl⟩))
      | false => exact escape_coded 32
    . next hspace =>
      split
      . exact escape_coded c
      . next hreserved =>
        refine List.forall_mem_singleton.mpr (Or.inr (Or.inr ⟨?_, hprintable.2, hreserved⟩))
        exact UInt8.lt_of_le_of_ne hprintable.1 (Ne.symm hspace)

theorem encode_coded (s : List UInt8) : ∀ c ∈ encode s spaceAsPlus, IsCoded spaceAsPlus c := by
  intro c hc
  obtain ⟨d, -, hc⟩ := List.mem_flatMap.mp hc
  exact encodeChar_coded d c hc

/--
What is encoded comes back, and has in it no character that is reserved, a control or a space or has 8 bits, except for
`%`, and `+` where it stands for a space.
-/
theorem decode_encode_percent (s : List UInt8) (spaceAsPlus : Bool)
    : decode spaceAsPlus (encode s spaceAsPlus) = s
        ∧ ∀ c ∈ encode s spaceAsPlus,
            c = 37 ∨ (spaceAsPlus = true ∧ c = 43) ∨ (32 < c ∧ c ≤ 126 ∧ c ∉ reserved) :=
  ⟨decode_encode_self s, encode_coded s⟩

end Coding

end URL

end Web
end ObTools
