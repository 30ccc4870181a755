import ObTools.Lib.Runs
import ObTools.Text.PatternSearch
import ObTools.Time.Stamp
import ObTools.Web.HTTPMessage
import ObTools.Web.URLQuery

/-!
This module contains the model of `Web::CookieJar`, and the proof that it keeps the cookies of different sites apart.

A stamp is given by its internal value, 0 if there is none. How the date of a cookie is read is left open, and the time
does not change within a call.
-/

namespace ObTools
namespace Web

open ObTools.Lex (chars)

namespace MIMEHeaders

-- The values of all headers of that name
def getAll (headers : MIMEHeaders) (name : List UInt8) : List (List UInt8) :=
  ((headers.xml.filter fun e => e.1 = name).map (·.2)).filter (· ≠ [])

end MIMEHeaders

def tolower (text : List UInt8) : List UInt8 := text.map Text.Pattern.tolower

structure Cookie where
  name : List UInt8
  value : List UInt8
  expires : UInt64
  path : List UInt8
  domain : List UInt8
  httpOnly : Bool
  secure : Bool
  created : UInt64
  origin : List UInt8
deriving DecidableEq, Repr

namespace Cookie

-- Comparison, for evicting existing ones
def same (c c' : Cookie) : Bool := c.name = c'.name ∧ c.domain = c'.domain ∧ c.path = c'.path

def EPOCH_1970 : UInt64 := 2208988800

-- `Stamp(1)`
def forcedExpiry : UInt64 := (1 + EPOCH_1970) <<< Time.INTERNAL_SHIFT

variable (stamp : List UInt8 → UInt64) (now : UInt64)

def maxAge (text : List UInt8) : UInt64 :=
  let delta := Text.stoi text
  if 0 < delta then Time.Stamp.add now { t := delta.toInt } else forcedExpiry

def readDomain (text : List UInt8) : List UInt8 :=
  let domain := tolower text
  -- Strip leading `.`
  if domain.head? = some 46 then domain.tail else domain

def readAttribute (cookie : Cookie) (pair : List UInt8) : Cookie :=
  let bits := Text.split pair 61 true 2
  let aname := tolower (bits.headD [])
  let value := bits.tail.headD []
  if value ≠ [] then
    -- Name=value attributes
    if aname = chars "expires" then
      { cookie with expires := stamp value }
    else if aname = chars "max-age" then
      { cookie with expires := maxAge now value }
    else if aname = chars "domain" then
      { cookie with domain := readDomain value }
    else if aname = chars "path" then
      { cookie with path := value }
    else
      cookie
  else
    -- Single-word boolean attributes
    if aname = chars "secure" then
      { cookie with secure := true }
    else if aname = chars "httponly" then
      { cookie with httpOnly := true }
    else
      cookie

-- Remove quotes
def unquote (value : List UInt8) : List UInt8 :=
  if 2 < value.length ∧ value.head? = some 34 ∧ value.getLast? = some 34 then value.tail.dropLast else value

-- Holds the actual cookie
def ofPair (pair : List UInt8) : Option Cookie :=
  match Text.split pair 61 true 2 with
  | [name, value] =>
    if name = [] then
      none
    else
      some {
        name
        value := unquote value
        expires := 0
        path := []
        domain := []
        httpOnly := false
        secure := false
        created := 0
        origin := []
      }
  | _ => none

def readFrom (headerValue : List UInt8) : Option Cookie :=
  match Text.split headerValue 59 true 0 with
  | [] => none
  | pair :: pairs => (ofPair pair).map fun cookie => pairs.foldl (readAttribute stamp now) cookie

-- Without attributes
def str (cookie : Cookie) : List UInt8 := cookie.name ++ [61] ++ cookie.value

end Cookie

-- The parts of a URL that decide about a cookie
structure Origin where
  scheme : List UInt8
  host : List UInt8
  path : List UInt8
deriving DecidableEq, Repr

namespace Origin

def ofURL (url : List UInt8) : Option Origin :=
  let (ok, xml) := URL.split url
  if ok then
    some { scheme := tolower (xml.get .scheme), host := tolower (xml.get .host), path := tolower (xml.get .path) }
  else
    none

def isHTTP (origin : Origin) : Bool := origin.scheme = chars "http" ∨ origin.scheme = chars "https"

end Origin

namespace CookieJar

-- The domain is a suffix with `.` as the previous character
def domainMatch (cookieDomain originHost : List UInt8) : Bool :=
  let cSize := cookieDomain.length
  let oSize := originHost.length
  originHost = cookieDomain
    ∨ (cSize < oSize ∧ originHost.drop (oSize - cSize) = cookieDomain ∧ originHost[oSize - cSize - 1]? = some 46)

-- The path is a prefix ending with `/`, or with `/` as the next character. It is never empty.
def pathMatch (cookiePath originPath : List UInt8) : Bool :=
  let cSize := cookiePath.length
  let oSize := originPath.length
  originPath.take cSize = cookiePath
    ∧ (oSize = cSize ∨ (cSize < oSize ∧ (originPath[cSize - 1]? = some 47 ∨ originPath[cSize]? = some 47)))

-- Get default path
def defaultPath (path : List UInt8) : List UInt8 :=
  if path.head? ≠ some 47 then
    [47]
  else
    match MIMEHeaders.rfind path 47 path.length with
    -- `/` if only one
    | some slash => path.take (if slash ≠ 0 then slash else 1)
    | none => path

variable (stamp : List UInt8 → UInt64) (now : UInt64)

-- What is put into the jar, if the cookie is not rejected
def accept (url : List UInt8) (origin : Origin) (headerValue : List UInt8) : Option Cookie :=
  match Cookie.readFrom stamp now headerValue with
  | none => none
  | some cookie =>
    -- Check if domain specified that it is a suffix of the origin
    if cookie.domain ≠ [] ∧ !domainMatch cookie.domain origin.host then
      none
    -- If cookie is HTTPOnly check the scheme is HTTP
    else if cookie.httpOnly ∧ !origin.isHTTP then
      none
    else
      some { cookie with
        -- If path is not specified and absolute, get it from origin
        path := if cookie.path.head? ≠ some 47 then defaultPath origin.path else cookie.path
        created := now
        origin := url }

def takeCookie (url : List UInt8) (origin : Origin) (cookies : List Cookie) (headerValue : List UInt8) : List Cookie :=
  match accept stamp now url origin headerValue with
  | none => cookies
  -- Evict any existing identical ones
  | some cookie => cookies.filter (fun c => !c.same cookie) ++ [cookie]

def takeCookiesFrom (cookies : List Cookie) (response : HTTPMessage) (url : List UInt8) : List Cookie :=
  match Origin.ofURL url with
  | none => cookies
  | some origin => (response.headers.getAll (chars "set-cookie")).foldl (takeCookie stamp now url origin) cookies

def isExpired (cookie : Cookie) : Bool := cookie.expires ≠ 0 ∧ cookie.expires ≤ now

def isSent (origin : Origin) (cookie : Cookie) : Bool :=
  !isExpired now cookie
    -- Suffix match if cookie specifies a domain, else exact same origin
    && (if cookie.domain ≠ [] then domainMatch cookie.domain origin.host else origin.host = URL.getHost cookie.origin)
    && pathMatch cookie.path origin.path
    && !(cookie.secure && origin.scheme ≠ chars "https")
    && !(cookie.httpOnly && !origin.isHTTP)

def addCookie (origin : Origin) (s : List UInt8) (cookie : Cookie) : List UInt8 :=
  if isSent now origin cookie then (if s ≠ [] then s ++ [59, 32] else s) ++ cookie.str else s

-- Where a request goes to
def target (url : List UInt8) : Option Origin :=
  (Origin.ofURL url).map fun origin => { origin with path := if origin.path = [] then [47] else origin.path }

def addCookiesTo (cookies : List Cookie) (request : HTTPMessage) : HTTPMessage :=
  match target request.url with
  | none => request
  | some origin =>
    let s := cookies.foldl (addCookie now origin) []
    if s ≠ [] then { request with headers := request.headers.put (chars "cookie") s } else request

def prune (cookies : List Cookie) (sessionEnded : Bool) : List Cookie :=
  cookies.filter fun cookie => !(sessionEnded && cookie.expires = 0) && !isExpired now cookie

-- What a program does with a jar
structure Client where
  cookies : List Cookie
  now : UInt64
deriving DecidableEq, Repr

inductive Op where
  | take (response : HTTPMessage) (url : List UInt8)
  | prune (sessionEnded : Bool)
  | advance (now : UInt64)

def step (s : Client) : Op → Option Client
  | .take response url => some { s with cookies := takeCookiesFrom stamp s.now s.cookies response url }
  | .prune sessionEnded => some { s with cookies := prune s.now s.cookies sessionEnded }
  | .advance now => if s.now ≤ now then some { s with now } else none

def sent (s : Client) (url : List UInt8) : List Cookie :=
  match target url with
  | none => []
  | some origin => s.cookies.filter (isSent s.now origin)

/-
What the matches are for.
-/

def InDomain (domain host : List UInt8) : Prop := host = domain ∨ 46 :: domain <:+ host

-- All of the path, or a part of it that ends at a `/`
def IsPathPrefix (cookiePath path : List UInt8) : Prop :=
  ∃ rest, path = cookiePath ++ rest ∧ (rest = [] ∨ cookiePath.getLast? = some 47 ∨ rest.head? = some 47)

def hostOf (url : List UInt8) : List UInt8 := tolower (URL.getHost url)

def schemeOf (url : List UInt8) : List UInt8 := tolower (URL.getScheme url)

-- `/` if there is none
def pathOf (url : List UInt8) : List UInt8 := if URL.getPath url = [] then [47] else URL.getPath url

section Match

variable {domain host path rest : List UInt8}

theorem domainMatch_iff : domainMatch domain host = true ↔ InDomain domain host := by
  unfold domainMatch InDomain
  dsimp only
  rw [decide_eq_true_iff]
  refine or_congr_right ?_
  constructor
  . rintro ⟨hlt, hdrop, hdot⟩
    obtain ⟨hplace, hdot⟩ := List.getElem?_eq_some_iff.mp hdot
    have hnext : host.length - domain.length - 1 + 1 = host.length - domain.length := by omega
    have hsuffix := List.drop_eq_getElem_cons hplace
    rw [hdot, hnext, hdrop] at hsuffix
    rw [← hsuffix]
    exact List.drop_suffix _ _
  . rintro ⟨pre, rfl⟩
    have hsplit : pre ++ 46 :: domain = (pre ++ [46]) ++ domain := by simp
    have hlength : (pre ++ 46 :: domain).length - domain.length = (pre ++ [46]).length := by
      simp only [List.length_append, List.length_cons, List.length_nil]
      omega
    refine ⟨?_, ?_, ?_⟩
    . simp only [List.length_append, List.length_cons]
      omega
    . rw [hlength, hsplit, List.drop_left]
    . rw [hlength, List.length_append, List.length_singleton, Nat.add_sub_cancel]
      simp

theorem pathMatch_iff (h : path ≠ []) (originPath : List UInt8)
    : pathMatch path originPath = true ↔ IsPathPrefix path originPath := by
  have hpos := List.length_pos_iff.mpr h
  unfold pathMatch IsPathPrefix
  dsimp only
  rw [decide_eq_true_iff]
  constructor
  . rintro ⟨htake, hend⟩
    have hsplit : originPath = path ++ originPath.drop path.length := by
      have happend := List.take_append_drop path.length originPath
      rw [htake] at happend
      exact happend.symm
    refine ⟨_, hsplit, ?_⟩
    rcases hend with hlength | ⟨-, hlast | hnext⟩
    . exact Or.inl (List.drop_eq_nil_of_le (Nat.le_of_eq hlength))
    . refine Or.inr (Or.inl ?_)
      rw [hsplit, List.getElem?_append_left (by omega)] at hlast
      rw [List.getLast?_eq_getElem?]
      exact hlast
    . refine Or.inr (Or.inr ?_)
      rw [List.head?_drop]
      exact hnext
  . rintro ⟨rest, rfl, hend⟩
    refine ⟨List.take_left' rfl, ?_⟩
    cases rest with
    | nil => exact Or.inl (by rw [List.append_nil])
    | cons c rest =>
      refine Or.inr ⟨by simp, ?_⟩
      rcases hend with hnil | hlast | hnext
      . contradiction
      . refine Or.inl ?_
        rw [List.getElem?_append_left (by omega), ← List.getLast?_eq_getElem?]
        exact hlast
      . refine Or.inr ?_
        rw [List.getElem?_append_right (Nat.le_refl _), Nat.sub_self]
        exact hnext

end Match

theorem tolower_tolower (text : List UInt8) : tolower (tolower text) = tolower text := by
  unfold tolower
  rw [List.map_map]
  apply List.map_congr_left
  intro c _
  show Text.Pattern.tolower (Text.Pattern.tolower c) = Text.Pattern.tolower c
  by_cases h : 65 ≤ c ∧ c ≤ 90
  . have hrange := Text.Pattern.tolower_range h
    apply Text.Pattern.tolower_of_not
    intro hupper
    exact absurd (UInt8.le_trans hrange.1 hupper.2) (by decide)
  . rw [Text.Pattern.tolower_of_not h, Text.Pattern.tolower_of_not h]

theorem tolower_eq_nil {text : List UInt8} : tolower text = [] ↔ text = [] := List.map_eq_nil_iff

def originOf (url : List UInt8) : Origin where
  scheme := schemeOf url
  host := hostOf url
  path := tolower (URL.getPath url)

theorem Origin.ofURL_some {url : List UInt8} {origin : Origin} (h : Origin.ofURL url = some origin)
    : origin = originOf url := by
  unfold Origin.ofURL at h
  dsimp only at h
  split at h
  . next hok =>
    rw [← Option.some.inj h]
    unfold originOf schemeOf hostOf URL.getScheme URL.getHost URL.getPath URL.getPart
    dsimp only
    rw [if_pos hok]
    rw [if_pos hok, if_pos hok]
  . contradiction

theorem target_some {url : List UInt8} {origin : Origin} (h : target url = some origin)
    : origin = { scheme := schemeOf url, host := hostOf url, path := tolower (pathOf url) } := by
  obtain ⟨o, ho, rfl⟩ := Option.map_eq_some_iff.mp h
  rw [Origin.ofURL_some ho]
  unfold originOf pathOf
  by_cases hpath : URL.getPath url = []
  . rw [if_pos (tolower_eq_nil.mpr hpath), if_pos hpath]
    rfl
  . rw [if_neg (mt tolower_eq_nil.mp hpath), if_neg hpath]

section Accept

variable {stamp : List UInt8 → UInt64} {now : UInt64} {url headerValue : List UInt8} {origin : Origin} {cookie : Cookie}

theorem defaultPath_ne_nil (path : List UInt8) : defaultPath path ≠ [] := by
  unfold defaultPath
  split
  . exact List.cons_ne_nil _ _
  . next hhead =>
    have hpath : path ≠ [] := by
      rintro rfl
      exact hhead (by simp)
    split
    . intro hnil
      rcases List.take_eq_nil_iff.mp hnil with hzero | hnil
      . split at hzero
        . contradiction
        . contradiction
      . exact hpath hnil
    . exact hpath

-- What is known of a cookie that has been accepted
structure Accepted (url : List UInt8) (origin : Origin) (cookie : Cookie) : Prop where
  origin_eq : cookie.origin = url
  domain : cookie.domain ≠ [] → InDomain cookie.domain origin.host
  path : cookie.path ≠ []

theorem accepted_of_accept (h : accept stamp now url origin headerValue = some cookie) : Accepted url origin cookie := by
  unfold accept at h
  split at h
  . contradiction
  . next read =>
    split at h
    . contradiction
    . next hdomain =>
      split at h
      . contradiction
      . cases h
        refine ⟨rfl, ?_, ?_⟩
        . intro hne
          apply domainMatch_iff.mp
          by_contra hnot
          exact hdomain ⟨hne, by simpa using hnot⟩
        . dsimp only
          split
          . exact defaultPath_ne_nil _
          . next hhead =>
            intro hnil
            rw [hnil] at hhead
            exact hhead (by simp)

theorem mem_takeCookie {cookies : List Cookie} {c : Cookie}
    : c ∈ takeCookie stamp now url origin cookies headerValue ↔
        (c ∈ cookies ∧ ∀ c', accept stamp now url origin headerValue = some c' → c.same c' = false)
          ∨ accept stamp now url origin headerValue = some c := by
  unfold takeCookie
  cases haccept : accept stamp now url origin headerValue with
  | none => simp
  | some cookie =>
    rw [List.mem_append, List.mem_singleton, List.mem_filter]
    refine or_congr (and_congr_right fun _ => ?_) ?_
    . rw [Bool.not_eq_true']
      constructor
      . rintro hsame c' ⟨⟩
        exact hsame
      . intro hall
        exact hall cookie rfl
    . rw [Option.some.injEq]
      exact eq_comm

end Accept

-- Whether there is a response that a cookie comes from
def SetBy (ops : List Op) (cookie : Cookie) : Prop :=
  ∃ response origin headerValue now,
    Op.take response cookie.origin ∈ ops
      ∧ Origin.ofURL cookie.origin = some origin
      ∧ headerValue ∈ response.headers.getAll (chars "set-cookie")
      ∧ accept stamp now cookie.origin origin headerValue = some cookie

/-
Whether a cookie may be seen by whoever gets a request for a URL.
-/
structure Isolated (now : UInt64) (cookie : Cookie) (url path : List UInt8) : Prop where
  host : cookie.domain = [] → hostOf cookie.origin = hostOf url
  domain : cookie.domain ≠ [] → InDomain cookie.domain (hostOf cookie.origin) ∧ InDomain cookie.domain (hostOf url)
  path : IsPathPrefix cookie.path path
  fresh : cookie.expires = 0 ∨ now < cookie.expires
  secure : cookie.secure = true → schemeOf url = chars "https"
  httpOnly : cookie.httpOnly = true → schemeOf url = chars "http" ∨ schemeOf url = chars "https"

section Run

variable {stamp : List UInt8 → UInt64} {s s' : Client} {ops : List Op} {cookie : Cookie}

theorem SetBy.mono {ops' : List Op} (h : SetBy stamp ops cookie) (hsub : ops ⊆ ops') : SetBy stamp ops' cookie := by
  obtain ⟨response, origin, headerValue, now, hmem, hrest⟩ := h
  exact ⟨response, origin, headerValue, now, hsub hmem, hrest⟩

theorem setBy_take {response : HTTPMessage} {url : List UInt8} {now : UInt64} {cookies : List Cookie}
    (hmem : Op.take response url ∈ ops) (h : ∀ c ∈ cookies, SetBy stamp ops c)
    : ∀ c ∈ takeCookiesFrom stamp now cookies response url, SetBy stamp ops c := by
  unfold takeCookiesFrom
  cases horigin : Origin.ofURL url with
  | none => exact h
  | some origin =>
    dsimp only
    have hloop (headers : List (List UInt8)) (hheaders : headers ⊆ response.headers.getAll (chars "set-cookie"))
        (cookies : List Cookie) (h : ∀ c ∈ cookies, SetBy stamp ops c)
        : ∀ c ∈ headers.foldl (takeCookie stamp now url origin) cookies, SetBy stamp ops c := by
      induction headers generalizing cookies with
      | nil => exact h
      | cons headerValue headers ih =>
        obtain ⟨hfirst, hrest⟩ := List.cons_subset.mp hheaders
        apply ih hrest
        intro c hc
        rcases mem_takeCookie.mp hc with ⟨hold, -⟩ | haccept
        . exact h c hold
        . have hurl := (accepted_of_accept haccept).origin_eq
          rw [← hurl] at hmem horigin haccept
          exact ⟨response, origin, headerValue, now, hmem, horigin, hfirst, haccept⟩
    exact hloop _ (List.Subset.refl _) cookies h

theorem setBy_step {op : Op} (h : ∀ c ∈ s.cookies, SetBy stamp ops c) (hstep : step stamp s op = some s')
    : ∀ c ∈ s'.cookies, SetBy stamp (ops ++ [op]) c := by
  have hold : ∀ c ∈ s.cookies, SetBy stamp (ops ++ [op]) c := fun c hc => (h c hc).mono (List.subset_append_left _ _)
  cases op with
  | take response url =>
    cases hstep
    exact setBy_take (List.mem_append_right _ List.mem_cons_self) hold
  | prune sessionEnded =>
    cases hstep
    intro c hc
    exact hold c (List.mem_of_mem_filter hc)
  | advance now =>
    dsimp only [step] at hstep
    split at hstep
    . cases hstep
      exact hold
    . contradiction

theorem setBy_run (hrun : Runs.run (step stamp) s ops = some s') (hs : s.cookies = [])
    : ∀ c ∈ s'.cookies, SetBy stamp ops c := by
  have hinit : ∀ c ∈ s.cookies, SetBy stamp [] c := by
    intro c hc
    rw [hs] at hc
    contradiction
  have hinv (ops : List Op) (s : Client) (op : Op) (s' : Client) (h : ∀ c ∈ s.cookies, SetBy stamp ops c)
      (hstep : step stamp s op = some s')
      : ∀ c ∈ s'.cookies, SetBy stamp (ops ++ [op]) c := setBy_step h hstep
  have hall := @Runs.run_history _ _ _ (fun ops s => ∀ c ∈ s.cookies, SetBy stamp ops c) hinv s s' [] ops hinit hrun
  exact hall

theorem isSent_iff {now : UInt64} {origin : Origin}
    : isSent now origin cookie = true ↔
        isExpired now cookie = false
          ∧ (if cookie.domain ≠ [] then domainMatch cookie.domain origin.host = true else origin.host = URL.getHost cookie.origin)
          ∧ pathMatch cookie.path origin.path = true
          ∧ (cookie.secure = true → origin.scheme = chars "https")
          ∧ (cookie.httpOnly = true → origin.scheme = chars "http" ∨ origin.scheme = chars "https") := by
  unfold isSent Origin.isHTTP
  by_cases hdomain : cookie.domain = []
  . simp [hdomain, and_assoc, imp_iff_not_or]
  . simp [hdomain, and_assoc, imp_iff_not_or]

theorem isExpired_eq_false_iff {now : UInt64} : isExpired now cookie = false ↔ cookie.expires = 0 ∨ now < cookie.expires := by
  unfold isExpired
  rw [decide_eq_false_iff_not, not_and_or, not_not, UInt64.not_le]

theorem addCookiesTo_eq (s : Client) (request : HTTPMessage)
    : addCookiesTo s.now s.cookies request
        = if sent s request.url ≠ [] then
            { request with
              headers := request.headers.put (chars "cookie") ([59, 32].intercalate ((sent s request.url).map Cookie.str)) }
          else
            request := by
  unfold addCookiesTo sent
  cases target request.url with
  | none => rfl
  | some origin =>
    dsimp only
    have hstr : ∀ c ∈ s.cookies.filter (isSent s.now origin), c.str ≠ [] := by
      intro c _
      unfold Cookie.str
      exact List.append_ne_nil_of_left_ne_nil (List.append_ne_nil_of_right_ne_nil _ (List.cons_ne_nil _ _)) _
    have hloop : s.cookies.foldl (addCookie s.now origin) []
        = [59, 32].intercalate ((s.cookies.filter (isSent s.now origin)).map Cookie.str) := by
      rw [← Text.foldl_join [59, 32] Cookie.str hstr, List.foldl_filter]
      rfl
    rw [hloop]
    refine if_congr (not_congr ?_) rfl rfl
    rw [Text.intercalate_eq_nil_iff [59, 32] (List.forall_mem_map.mpr hstr), List.map_eq_nil_iff]

theorem mem_cookies_of_mem_sent {url : List UInt8} (h : cookie ∈ sent s url) : cookie ∈ s.cookies := by
  unfold sent at h
  split at h
  . contradiction
  . exact List.mem_of_mem_filter h

theorem isolated_of_sent {url : List UInt8} (hset : SetBy stamp ops cookie) (hsent : cookie ∈ sent s url)
    : Isolated s.now cookie url (tolower (pathOf url)) := by
  obtain ⟨_, origin, headerValue, now, -, horigin, -, haccept⟩ := hset
  have haccepted := accepted_of_accept haccept
  have horigin := Origin.ofURL_some horigin
  unfold sent at hsent
  cases htarget : target url with
  | none =>
    rw [htarget] at hsent
    contradiction
  | some goal =>
    rw [htarget] at hsent
    have hgoal := target_some htarget
    have hcond := (List.mem_filter.mp hsent).2
    obtain ⟨hfresh, hdomain, hpath, hsecure, hhttp⟩ := isSent_iff.mp hcond
    rw [hgoal] at hdomain hpath hsecure hhttp
    rw [horigin] at haccepted
    refine ⟨?_, ?_, (pathMatch_iff haccepted.path _).mp hpath, ?_, hsecure, hhttp⟩
    . intro hnone
      rw [if_neg (not_not_intro hnone)] at hdomain
      unfold hostOf
      rw [← hdomain]
      exact tolower_tolower _
    . intro hne
      rw [if_pos hne] at hdomain
      exact ⟨haccepted.domain hne, domainMatch_iff.mp hdomain⟩
    . exact isExpired_eq_false_iff.mp hfresh

end Run

/--
Whatever has been taken, cookies go back only where they may: the header is made of those that have been set by a
response from the same host, or within their domain, and match the path in lower case. None of them has expired, and
what is secure, or for HTTP only, is kept to that.
-/
theorem sent_isolated (stamp : List UInt8 → UInt64) (now : UInt64) (ops : List Op) (s : Client)
    (hrun : Runs.run (step stamp) { cookies := [], now } ops = some s) (request : HTTPMessage)
    : addCookiesTo s.now s.cookies request
          = (if sent s request.url ≠ [] then
              { request with
                headers := request.headers.put (chars "cookie") ([59, 32].intercalate ((sent s request.url).map Cookie.str)) }
            else
              request)
        ∧ ∀ cookie ∈ sent s request.url,
            SetBy stamp ops cookie ∧ Isolated s.now cookie request.url (tolower (pathOf request.url)) := by
  refine ⟨addCookiesTo_eq s request, ?_⟩
  intro cookie hsent
  have hset := setBy_run hrun rfl cookie (mem_cookies_of_mem_sent hsent)
  exact ⟨hset, isolated_of_sent hset hsent⟩

-- With the cookie `a=b; Path=/a`
def setResponse : HTTPMessage where
  method := []
  url := []
  code := 200
  reason := []
  version := []
  headers := { maxLine := 0, xml := [(chars "set-cookie", [97, 61, 98, 59, 80, 97, 116, 104, 61, 47, 97])] }
  body := []

def setCookie : Cookie where
  name := [97]
  value := [98]
  expires := 0
  path := [47, 97]
  domain := []
  httpOnly := false
  secure := false
  created := 0
  origin := URL.rootURL

-- `http://h/A`
def upperRequest : HTTPMessage := { setResponse with url := URL.rootURL ++ [65] }

theorem run_set
    : Runs.run (step fun _ => 0) { cookies := [], now := 0 } [.take setResponse URL.rootURL]
        = some { cookies := [setCookie], now := 0 } := rfl

theorem setCookie_sent : setCookie ∈ sent { cookies := [setCookie], now := 0 } upperRequest.url := by decide

theorem sent_isolated_upper
    : SetBy (fun _ => 0) [.take setResponse URL.rootURL] setCookie
        ∧ Isolated 0 setCookie upperRequest.url (tolower (pathOf upperRequest.url)) :=
  (sent_isolated (fun _ => 0) 0 _ _ run_set upperRequest).2 setCookie setCookie_sent

-- The path that is requested is not the one in lower case.
theorem not_sent_isolated
    : ¬∀ (stamp : List UInt8 → UInt64) (now : UInt64) (ops : List Op) (s : Client),
        Runs.run (step stamp) { cookies := [], now } ops = some s →
          ∀ request : HTTPMessage, ∀ cookie ∈ sent s request.url,
            SetBy stamp ops cookie ∧ Isolated s.now cookie request.url (pathOf request.url) := by
  intro hall
  obtain ⟨rest, hpath, -⟩ := (hall _ _ _ _ run_set upperRequest setCookie setCookie_sent).2.path
  have htake : (pathOf upperRequest.url).take 2 = [47, 97] := by
    rw [hpath]
    rfl
  revert htake
  decide

end CookieJar

end Web
end ObTools
