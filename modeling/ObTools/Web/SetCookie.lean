import ObTools.Web.CookiesReturned

/-!
This module contains the model of how a server sets a cookie and reads those of a request, and the proof of which values
come back to it, as they are encoded on the way out but not decoded on the way in.
-/

namespace ObTools
namespace Web

open ObTools.Lex (chars)

namespace HTTPMessage

-- How a date is written is left open.
def setCookie (rfc822 : UInt64 → List UInt8) (message : HTTPMessage) (name value path domain : List UInt8)
    (expires : UInt64) (secure httpOnly : Bool)
    : HTTPMessage :=
  -- Name value %-encoded, including spaces
  let cookie :=
    URL.encode name false ++ [61] ++ URL.encode value false
      ++ (if expires ≠ 0 then chars "; Expires=" ++ rfc822 expires else [])
      ++ (if domain ≠ [] then chars "; Domain=" ++ domain else [])
      ++ (if path ≠ [] then chars "; Path=" ++ path else [])
      ++ (if secure then chars "; Secure" else [])
      ++ (if httpOnly then chars "; HttpOnly" else [])
  { message with headers := message.headers.put (chars "set-cookie") cookie }

abbrev Cookies := List (List UInt8 × List UInt8)

-- Split into name, value on `=`. The 2 that is passed there is not the maximum.
def readPair (values : Cookies) (pair : List UInt8) : Cookies :=
  match Text.splitFields pair 61 with
  | [name, value] => SortedMap.set (Text.canonicaliseSpace name) (Text.canonicaliseSpace value) values
  | _ => values

def readHeader (values : Cookies) (hdr : List UInt8) : Cookies := (Text.splitFields hdr 59).foldl readPair values

def getCookies (message : HTTPMessage) (values : Cookies) : Cookies :=
  (message.headers.getAll (chars "cookie")).foldl readHeader values

-- Empty if not set
def getCookie (message : HTTPMessage) (name : List UInt8) : List UInt8 :=
  (SortedMap.find name (message.getCookies [])).getD []

end HTTPMessage

namespace Cookie

-- What needs no encoding, so that it is the same on either side
def IsPlain (text : List UInt8) : Prop := ∀ c ∈ text, 32 < c ∧ c ≤ 126 ∧ c ∉ URL.reserved

instance (text : List UInt8) : Decidable (IsPlain text) := List.decidableBAll _ text

-- Whether quotes are removed
def IsQuoted (value : List UInt8) : Prop := 2 < value.length ∧ value.head? = some 34 ∧ value.getLast? = some 34

instance (value : List UInt8) : Decidable (IsQuoted value) := inferInstanceAs (Decidable (_ ∧ _))

variable {name value : List UInt8}

theorem unquote_of_quoted (h : IsQuoted value) : unquote value = value.tail.dropLast := if_pos h

theorem unquote_eq_self_iff : unquote value = value ↔ ¬IsQuoted value := by
  constructor
  . intro heq hquoted
    rw [unquote_of_quoted hquoted] at heq
    have hlength := congrArg List.length heq
    rw [List.length_dropLast, List.length_tail] at hlength
    have hlong := hquoted.1
    omega
  . exact fun hnot => if_neg hnot

theorem encode_of_head {c : UInt8} (h : (URL.encode (c :: value) false).head? = some 34)
    : c = 34 ∧ URL.encode (c :: value) false = 34 :: URL.encode value false := by
  rw [URL.encode_cons] at h ⊢
  rcases URL.encodeChar_cases c with hkept | hescaped
  . rw [hkept] at h ⊢
    have hc : c = 34 := Option.some.inj h
    rw [hc]
    exact ⟨rfl, rfl⟩
  . rw [List.head?_append, hescaped, Option.some_or] at h
    exact absurd h (by decide)

-- What is longer when it is encoded is not quotes alone
theorem dropLast_encode_ne (value : List UInt8) : (URL.encode value false).dropLast ≠ 34 :: value := by
  induction value with
  | nil => exact (List.cons_ne_nil _ _).symm
  | cons c value ih =>
    intro heq
    have hhead : (URL.encode (c :: value) false).head? = some 34 := by
      have hne : URL.encode (c :: value) false ≠ [] := URL.encode_ne_nil (List.cons_ne_nil _ _)
      cases hcode : URL.encode (c :: value) false with
      | nil => exact absurd hcode hne
      | cons d code =>
        rw [hcode] at heq
        cases code with
        | nil => contradiction
        | cons d' code => exact congrArg List.head? heq
    obtain ⟨hc, hcode⟩ := encode_of_head hhead
    rw [hcode, hc] at heq
    cases hrest : URL.encode value false with
    | nil =>
      rw [hrest] at heq
      contradiction
    | cons d code =>
      rw [hrest] at heq
      apply ih
      rw [hrest]
      exact (List.cons.inj heq).2

theorem unquote_encode_iff : unquote (URL.encode value false) = value ↔ IsPlain value ∧ ¬IsQuoted value := by
  have hplain : IsPlain value ↔ URL.encode value false = value := URL.encode_eq_self_iff.symm
  rw [hplain]
  constructor
  . intro heq
    by_cases hquoted : IsQuoted (URL.encode value false)
    . rw [unquote_of_quoted hquoted] at heq
      cases value with
      | nil => exact absurd hquoted.2.1 (by decide)
      | cons c value =>
        obtain ⟨hc, hcode⟩ := encode_of_head hquoted.2.1
        rw [hcode, hc] at heq
        exact absurd heq (dropLast_encode_ne value)
    . rw [unquote_eq_self_iff.mpr hquoted] at heq
      rw [heq] at hquoted
      exact ⟨heq, hquoted⟩
  . rintro ⟨hsame, hnot⟩
    rw [hsame]
    exact unquote_eq_self_iff.mpr hnot

/-
What has been encoded is a single name or value of a pair.
-/

def IsCoded (text : List UInt8) : Prop := ∀ c ∈ text, URL.IsCoded false c

theorem isCoded_encode (text : List UInt8) : IsCoded (URL.encode text false) := URL.encode_coded text

theorem isCoded_unquote (h : IsCoded value) : IsCoded (unquote value) := by
  unfold unquote
  split
  . exact fun c hc => h c (List.mem_of_mem_tail (List.mem_of_mem_dropLast hc))
  . exact h

theorem IsCoded.ne (h : IsCoded value) {c : UInt8} (hc : c ∈ [59, 61, 32, 9, 13, 10]) : c ∉ value := by
  intro hmem
  have hcoded := h c hmem
  simp only [List.mem_cons, List.not_mem_nil, or_false] at hc
  rcases hc with rfl | rfl | rfl | rfl | rfl | rfl <;> exact absurd hcoded (by decide)

theorem IsCoded.canonicalise (h : IsCoded value) : Text.canonicaliseSpace value = value := by
  apply Text.canonicaliseSpace_eq_self
  rintro c hc (rfl | rfl | rfl | rfl)
  . exact h.ne (by decide) hc
  . exact h.ne (by decide) hc
  . exact h.ne (by decide) hc
  . exact h.ne (by decide) hc

theorem split_pair (hname : IsCoded name) (hvalue : IsCoded value) {max : Int} (hmax : max = 0 ∨ 0 < max - 1)
    : Text.split (name ++ [61] ++ value) 61 true max = [name, value] := by
  unfold Text.split
  rw [List.append_assoc, List.singleton_append, Text.splitLoop_append hmax (hname.ne (by decide)),
    Text.splitLoop_of_not_mem (hvalue.ne (by decide)), if_pos rfl, if_pos rfl, List.nil_append, List.nil_append,
    hname.canonicalise, hvalue.canonicalise]

theorem canonicalise_pair (hname : IsCoded name) (hvalue : IsCoded value)
    : Text.canonicaliseSpace (name ++ [61] ++ value) = name ++ [61] ++ value := by
  apply Text.canonicaliseSpace_eq_self
  intro c hc hspace
  have hmem : c ∈ [59, 61, 32, 9, 13, 10] := by
    rcases hspace with rfl | rfl | rfl | rfl <;> decide
  rcases List.mem_append.mp hc with hc | hc
  . rcases List.mem_append.mp hc with hc | hc
    . exact hname.ne hmem hc
    . rw [List.mem_singleton.mp hc] at hspace
      exact absurd hspace (by decide)
  . exact hvalue.ne hmem hc

theorem semicolon_not_mem_pair (hname : IsCoded name) (hvalue : IsCoded value) : 59 ∉ name ++ [61] ++ value := by
  rw [List.mem_append, List.mem_append, List.mem_singleton, not_or, not_or]
  exact ⟨⟨hname.ne (by decide), by decide⟩, hvalue.ne (by decide)⟩

-- Whether it is the first pair or behind a blank
theorem splitFields_pair (hname : IsCoded name) (hvalue : IsCoded value)
    : Text.splitFields (name ++ [61] ++ value) 59 = [name ++ [61] ++ value]
      ∧ Text.splitFields (32 :: (name ++ [61] ++ value)) 59 = [name ++ [61] ++ value] := by
  have hpair := semicolon_not_mem_pair hname hvalue
  have hblank : 59 ∉ 32 :: (name ++ [61] ++ value) := by
    rw [List.mem_cons, not_or]
    exact ⟨by decide, hpair⟩
  have hcanonical : Text.canonicaliseSpace (32 :: (name ++ [61] ++ value)) = name ++ [61] ++ value :=
    canonicalise_pair hname hvalue
  unfold Text.splitFields Text.split
  rw [Text.splitLoop_of_not_mem hpair, Text.splitLoop_of_not_mem hblank, if_pos rfl, if_pos rfl, List.nil_append,
    List.nil_append, hcanonical, canonicalise_pair hname hvalue]
  exact ⟨rfl, rfl⟩

end Cookie

theorem MIMEHeaders.getAll_put (headers : MIMEHeaders) (name : List UInt8) {value : List UInt8} (h : value ≠ [])
    : (headers.put name value).getAll name = headers.getAll name ++ [value] := by
  simp [getAll, put, h]

namespace HTTPMessage

variable {name value : List UInt8}

-- A pair at the end of a header is read after all others.
theorem readHeader_concat (hname : Cookie.IsCoded name) (hvalue : Cookie.IsCoded value) (values : Cookies)
    (s : List UInt8)
    : readHeader values ((if s ≠ [] then s ++ [59, 32] else s) ++ (name ++ [61] ++ value))
        = SortedMap.set name value (readHeader values s) := by
  have hpair (values : Cookies) : readPair values (name ++ [61] ++ value) = SortedMap.set name value values := by
    have hsplit : Text.splitFields (name ++ [61] ++ value) 61 = [name, value] :=
      Cookie.split_pair hname hvalue (.inl rfl)
    unfold readPair
    rw [hsplit]
    dsimp only
    rw [hname.canonicalise, hvalue.canonicalise]
  obtain ⟨hfirst, hblank⟩ := Cookie.splitFields_pair hname hvalue
  by_cases hs : s = []
  . rw [hs, if_neg (not_not_intro rfl), List.nil_append]
    unfold readHeader
    rw [hfirst, List.foldl_cons, List.foldl_nil, hpair]
    rfl
  . have hsplit : s ++ [59, 32] ++ (name ++ [61] ++ value) = s ++ 59 :: (32 :: (name ++ [61] ++ value)) := by
      simp only [List.append_assoc, List.cons_append, List.nil_append]
    rw [if_pos hs, hsplit]
    unfold readHeader
    rw [Text.splitFields_append, hblank, List.foldl_append, List.foldl_cons, List.foldl_nil, hpair]

-- There is no header if there is nothing to put into it.
theorem getCookies_put (request : HTTPMessage) (s : List UInt8) (values : Cookies)
    : getCookies (if s ≠ [] then { request with headers := request.headers.put (chars "cookie") s } else request) values
        = readHeader (request.getCookies values) s := by
  by_cases hs : s = []
  . rw [if_neg (not_not_intro hs), hs]
    rfl
  . rw [if_pos hs]
    unfold getCookies
    rw [MIMEHeaders.getAll_put _ _ hs, List.foldl_append]
    rfl

end HTTPMessage

namespace CookieJar

/-
What is put into the jar when a cookie has been set with a name and a value only.
-/

def carried (now : UInt64) (url name value : List UInt8) : Cookie where
  name := URL.encode name false
  value := Cookie.unquote (URL.encode value false)
  expires := 0
  path := defaultPath (tolower (URL.getPath url))
  domain := []
  httpOnly := false
  secure := false
  created := now
  origin := url

variable {stamp : List UInt8 → UInt64} {now : UInt64} {url name value : List UInt8} {origin : Origin}

theorem readFrom_pair (hname : name ≠ [])
    : Cookie.readFrom stamp now (URL.encode name false ++ [61] ++ URL.encode value false)
        = some { carried 0 [] name value with path := [] } := by
  have hsplit := (Cookie.splitFields_pair (Cookie.isCoded_encode name) (Cookie.isCoded_encode value)).1
  have hpair := @Cookie.split_pair _ _ (Cookie.isCoded_encode name) (Cookie.isCoded_encode value) 2 (.inr (by decide))
  have hfields : Text.split (URL.encode name false ++ [61] ++ URL.encode value false) 59 true 0
      = [URL.encode name false ++ [61] ++ URL.encode value false] := hsplit
  unfold Cookie.readFrom Cookie.ofPair
  rw [hfields]
  dsimp only
  rw [hpair]
  dsimp only
  rw [if_neg (URL.encode_ne_nil hname)]
  rfl

theorem accept_pair (hname : name ≠ []) (horigin : Origin.ofURL url = some origin)
    : accept stamp now url origin (URL.encode name false ++ [61] ++ URL.encode value false)
        = some (carried now url name value) := by
  have hpath : origin.path = tolower (URL.getPath url) := by
    rw [Origin.ofURL_some horigin]
    rfl
  unfold accept
  rw [readFrom_pair hname]
  dsimp only
  rw [if_neg fun h => h.1 rfl, if_neg fun h => Bool.false_ne_true h.1, hpath]
  rfl

-- The other cookies in the jar, those it takes the place of are gone
def others (stamp : List UInt8 → UInt64) (now : UInt64) (cookies : List Cookie) (response : HTTPMessage)
    (url name value : List UInt8)
    : List Cookie :=
  (takeCookiesFrom stamp now cookies response url).filter fun c => !c.same (carried now url name value)

theorem takeCookiesFrom_setCookie (rfc822 : UInt64 → List UInt8) (cookies : List Cookie) (response : HTTPMessage)
    (hname : name ≠ []) (horigin : Origin.ofURL url = some origin)
    : takeCookiesFrom stamp now cookies (response.setCookie rfc822 name value [] [] 0 false false) url
        = others stamp now cookies response url name value ++ [carried now url name value] := by
  have hheaders : (response.setCookie rfc822 name value [] [] 0 false false).headers.getAll (chars "set-cookie")
      = response.headers.getAll (chars "set-cookie") ++ [URL.encode name false ++ [61] ++ URL.encode value false] := by
    unfold HTTPMessage.setCookie
    simp only [ne_eq, not_true_eq_false, if_false, List.append_nil, Bool.false_eq_true]
    exact MIMEHeaders.getAll_put _ _ (by simp)
  unfold others takeCookiesFrom
  rw [horigin]
  dsimp only
  rw [hheaders, List.foldl_append, List.foldl_cons, List.foldl_nil]
  generalize List.foldl _ cookies _ = taken
  unfold takeCookie
  rw [accept_pair hname horigin]

/-
Whether a cookie without a path and a domain goes back to where it comes from.
-/
structure Carries (url : List UInt8) : Prop where
  split : (URL.split url).1 = true
  host : hostOf url = URL.getHost url
  path : (pathOf url).head? = some 47

instance (url : List UInt8) : Decidable (Carries url) :=
  decidable_of_iff ((URL.split url).1 = true ∧ hostOf url = URL.getHost url ∧ (pathOf url).head? = some 47)
    ⟨fun h => ⟨h.1, h.2.1, h.2.2⟩, fun h => ⟨h.split, h.host, h.path⟩⟩

theorem target_eq_some_iff : (URL.split url).1 = true ↔ ∃ goal, target url = some goal := by
  unfold target Origin.ofURL
  dsimp only
  cases hsplit : (URL.split url).1 with
  | true => simp
  | false => simp

theorem head?_of_tolower {path : List UInt8} (h : (tolower path).head? = some 47) : path.head? = some 47 := by
  cases path with
  | nil => contradiction
  | cons c path =>
    have hc : Text.Pattern.tolower c = 47 := Option.some.inj h
    by_cases hupper : 65 ≤ c ∧ c ≤ 90
    . have hrange := Text.Pattern.tolower_range hupper
      rw [hc] at hrange
      exact absurd hrange.1 (by decide)
    . rw [Text.Pattern.tolower_of_not hupper] at hc
      exact congrArg some hc

theorem pathMatch_default_iff
    : pathMatch (defaultPath (tolower (URL.getPath url))) (tolower (pathOf url)) = true
        ↔ (pathOf url).head? = some 47 := by
  rw [pathMatch_iff (defaultPath_ne_nil _)]
  unfold pathOf
  by_cases hnone : URL.getPath url = []
  . rw [if_pos hnone, hnone]
    exact iff_of_true ⟨[], rfl, Or.inl rfl⟩ rfl
  . rw [if_neg hnone]
    constructor
    . rintro ⟨rest, heq, -⟩
      by_contra hhead
      have hlower : (tolower (URL.getPath url)).head? ≠ some 47 := mt head?_of_tolower hhead
      have hdefault : defaultPath (tolower (URL.getPath url)) = [47] := if_pos hlower
      rw [hdefault] at heq
      rw [heq] at hlower
      exact hlower rfl
    . exact fun hhead => defaultPath_prefix (head?_tolower hhead)

theorem isSent_carried_iff {now' : UInt64} {goal : Origin} (hgoal : target url = some goal)
    : isSent now' goal (carried now url name value) = true ↔ Carries url := by
  have hfresh : isExpired now' (carried now url name value) = false := rfl
  have hdomain : (carried now url name value).domain = [] := rfl
  have hsplit := target_eq_some_iff.mpr ⟨goal, hgoal⟩
  rw [isSent_iff, target_some hgoal, if_neg (not_not_intro hdomain)]
  constructor
  . rintro ⟨-, hhost, hpath, -, -⟩
    exact ⟨hsplit, hhost, pathMatch_default_iff.mp hpath⟩
  . rintro ⟨-, hhost, hpath⟩
    exact ⟨hfresh, hhost, pathMatch_default_iff.mpr hpath, nofun, nofun⟩

/-
What a request says about the cookie.
-/

theorem getCookies_concat {now' : UInt64} (cookies : List Cookie) (request : HTTPMessage) {cookie : Cookie}
    (hname : Cookie.IsCoded cookie.name) (hvalue : Cookie.IsCoded cookie.value)
    {goal : Origin} (hgoal : target request.url = some goal)
    : (addCookiesTo now' (cookies ++ [cookie]) request).getCookies []
        = if isSent now' goal cookie then
            SortedMap.set cookie.name cookie.value ((addCookiesTo now' cookies request).getCookies [])
          else
            (addCookiesTo now' cookies request).getCookies [] := by
  unfold addCookiesTo
  rw [hgoal]
  dsimp only
  rw [List.foldl_append, List.foldl_cons, List.foldl_nil]
  generalize cookies.foldl (addCookie now' goal) [] = s
  rw [HTTPMessage.getCookies_put, HTTPMessage.getCookies_put, addCookie]
  cases isSent now' goal cookie with
  | false => rfl
  | true =>
    rw [if_pos rfl, if_pos rfl]
    exact HTTPMessage.readHeader_concat hname hvalue _ s

-- What comes back under the name: what has been encoded, or what the other cookies say
theorem getCookie_carried {now' : UInt64} (rfc822 : UInt64 → List UInt8) (cookies : List Cookie)
    (response request : HTTPMessage) (hname : name ≠ [])
    : (addCookiesTo now'
          (takeCookiesFrom stamp now cookies (response.setCookie rfc822 name value [] [] 0 false false) request.url)
          request).getCookie name
        = if Carries request.url ∧ Cookie.IsPlain name then
            Cookie.unquote (URL.encode value false)
          else
            (addCookiesTo now' (others stamp now cookies response request.url name value) request).getCookie name := by
  cases hgoal : target request.url with
  | none =>
    have hcarries : ¬(Carries request.url ∧ Cookie.IsPlain name) := by
      rintro ⟨hcarries, -⟩
      obtain ⟨goal, hsome⟩ := target_eq_some_iff.mp hcarries.split
      rw [hgoal] at hsome
      contradiction
    rw [if_neg hcarries]
    unfold addCookiesTo
    rw [hgoal]
  | some goal =>
    obtain ⟨origin, horigin, -⟩ := Option.map_eq_some_iff.mp hgoal
    have hvalue : Cookie.IsCoded (carried now request.url name value).value :=
      Cookie.isCoded_unquote (Cookie.isCoded_encode value)
    unfold HTTPMessage.getCookie
    rw [takeCookiesFrom_setCookie rfc822 cookies response hname horigin,
      getCookies_concat _ request (Cookie.isCoded_encode name) hvalue hgoal]
    by_cases hcarries : Carries request.url
    . rw [if_pos ((isSent_carried_iff hgoal).mpr hcarries)]
      by_cases hplain : Cookie.IsPlain name
      . have hkey : (carried now request.url name value).name = name := URL.encode_eq_self_iff.mpr hplain
        rw [if_pos ⟨hcarries, hplain⟩, hkey, SortedMap.find_set_self]
        rfl
      . have hkey : name ≠ (carried now request.url name value).name :=
          fun heq => hplain (URL.encode_eq_self_iff.mp heq.symm)
        rw [if_neg fun h => hplain h.2, SortedMap.find_set_of_ne hkey]
    . rw [if_neg (mt (isSent_carried_iff hgoal).mp hcarries), if_neg fun h => hcarries h.1]

/--
A value that a server sets comes back if and only if the URL is one to which the cookie is sent, there is nothing to
encode in the name and the value, and the value is not in quotes. If the cookie does not come back under the name, it is
left to the other cookies of the request.
-/
theorem getCookie_setCookie_iff (rfc822 : UInt64 → List UInt8) (stamp : List UInt8 → UInt64) (now now' : UInt64)
    (cookies : List Cookie) (response request : HTTPMessage) (value : List UInt8) (hname : name ≠ [])
    : (addCookiesTo now'
          (takeCookiesFrom stamp now cookies (response.setCookie rfc822 name value [] [] 0 false false) request.url)
          request).getCookie name = value
        ↔ if Carries request.url ∧ Cookie.IsPlain name then
            Cookie.IsPlain value ∧ ¬Cookie.IsQuoted value
          else
            (addCookiesTo now' (others stamp now cookies response request.url name value) request).getCookie name
              = value := by
  rw [getCookie_carried rfc822 cookies response request hname]
  by_cases hcarries : Carries request.url ∧ Cookie.IsPlain name
  . rw [if_pos hcarries, if_pos hcarries]
    exact Cookie.unquote_encode_iff
  . rw [if_neg hcarries, if_neg hcarries]

-- Without any others, only an empty value need not be sent.
theorem getCookie_setCookie_alone (rfc822 : UInt64 → List UInt8) (stamp : List UInt8 → UInt64) (now now' : UInt64)
    {response request : HTTPMessage} (value : List UInt8) (hname : name ≠ [])
    (hresponse : response.headers.getAll (chars "set-cookie") = [])
    (hrequest : request.headers.getAll (chars "cookie") = [])
    : (addCookiesTo now'
          (takeCookiesFrom stamp now [] (response.setCookie rfc822 name value [] [] 0 false false) request.url)
          request).getCookie name = value
        ↔ value = []
            ∨ (Carries request.url ∧ Cookie.IsPlain name ∧ Cookie.IsPlain value ∧ ¬Cookie.IsQuoted value) := by
  have htaken : takeCookiesFrom stamp now [] response request.url = [] := by
    unfold takeCookiesFrom
    rw [hresponse]
    cases Origin.ofURL request.url with
    | none => rfl
    | some origin => rfl
  have hothers
      : (addCookiesTo now' (others stamp now [] response request.url name value) request).getCookie name = [] := by
    have hnone : addCookiesTo now' [] request = request := by
      unfold addCookiesTo
      cases target request.url with
      | none => rfl
      | some goal => rfl
    unfold others
    rw [htaken, List.filter_nil, hnone]
    unfold HTTPMessage.getCookie HTTPMessage.getCookies
    rw [hrequest]
    rfl
  rw [getCookie_carried rfc822 [] response request hname, hothers]
  by_cases hcarries : Carries request.url ∧ Cookie.IsPlain name
  . rw [if_pos hcarries, Cookie.unquote_encode_iff, ← and_assoc, and_iff_right hcarries]
    refine (or_iff_right_of_imp ?_).symm
    rintro rfl
    decide
  . rw [if_neg hcarries, ← and_assoc, or_iff_left fun h => hcarries h.1]
    exact eq_comm

-- `http://h/`
def rootRequest : HTTPMessage := { setResponse with url := URL.rootURL, headers := .new }

theorem getCookie_setCookie_root
    : (addCookiesTo 0
          (takeCookiesFrom (fun _ => 0) 0 [] (rootRequest.setCookie (fun _ => []) [97] [98] [] [] 0 false false)
            URL.rootURL)
          rootRequest).getCookie [97] = [98] :=
  (getCookie_setCookie_iff (fun _ => []) (fun _ => 0) 0 0 [] rootRequest rootRequest [98] (by decide)).mpr (by decide)

-- A blank in the value comes back as `%20`.
theorem not_getCookie_setCookie
    : ¬∀ (rfc822 : UInt64 → List UInt8) (stamp : List UInt8 → UInt64) (now now' : UInt64) (cookies : List Cookie)
        (response request : HTTPMessage) (name value : List UInt8),
        name ≠ [] →
          (addCookiesTo now'
            (takeCookiesFrom stamp now cookies (response.setCookie rfc822 name value [] [] 0 false false) request.url)
            request).getCookie name = value := by
  intro hall
  have hvalue := hall (fun _ => []) (fun _ => 0) 0 0 [] rootRequest rootRequest [97] [97, 32, 98] (by decide)
  revert hvalue
  decide

end CookieJar

end Web
end ObTools
