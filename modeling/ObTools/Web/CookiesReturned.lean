import ObTools.Web.Cookies
import ObTools.Web.MIMEHeadersLemmas

/-!
This module contains the proof of when a cookie goes back to where it has been set, as hosts and paths are lower-cased on
one side only, and the cookies of different hosts are taken for each other when one is evicted.
-/

namespace ObTools
namespace Web

open ObTools.Lex (chars)

namespace Cookie

-- What does not depend on when it has been set
def timeless (c : Cookie) : Cookie := { c with expires := 0, created := 0 }

theorem same_of_timeless {c c' : Cookie} (h : c.timeless = c'.timeless) (d : Cookie) : d.same c = d.same c' := by
  have hsame : d.same c.timeless = d.same c'.timeless := congrArg d.same h
  exact hsame

variable {stamp : List UInt8 → UInt64} {now now' : UInt64}

theorem readAttribute_timeless (c : Cookie) (pair : List UInt8)
    : (readAttribute stamp now c pair).timeless = (readAttribute stamp now' c.timeless pair).timeless := by
  unfold readAttribute
  dsimp only
  split
  . split
    . rfl
    . split
      . rfl
      . split
        . rfl
        . split
          . rfl
          . rfl
  . split
    . rfl
    . split
      . rfl
      . rfl

theorem foldl_timeless (pairs : List (List UInt8)) {c c' : Cookie} (h : c.timeless = c'.timeless)
    : (pairs.foldl (readAttribute stamp now) c).timeless = (pairs.foldl (readAttribute stamp now') c').timeless := by
  induction pairs generalizing c c' with
  | nil => exact h
  | cons pair pairs ih =>
    apply ih
    rw [@readAttribute_timeless stamp now now' c pair, h, ← @readAttribute_timeless stamp now' now' c' pair]

theorem readFrom_timeless {headerValue : List UInt8} {c : Cookie} (h : readFrom stamp now headerValue = some c) (now' : UInt64)
    : ∃ c', readFrom stamp now' headerValue = some c' ∧ c'.timeless = c.timeless := by
  unfold readFrom at h ⊢
  split at h
  . contradiction
  . next pair pairs hsplit =>
    obtain ⟨cookie, hpair, rfl⟩ := Option.map_eq_some_iff.mp h
    exact ⟨_, Option.map_eq_some_iff.mpr ⟨cookie, hpair, rfl⟩, foldl_timeless pairs rfl⟩

end Cookie

namespace CookieJar

variable {stamp : List UInt8 → UInt64} {url : List UInt8} {c : Cookie}

theorem accept_timeless {now : UInt64} {origin : Origin} {headerValue : List UInt8}
    (h : accept stamp now url origin headerValue = some c) (now' : UInt64)
    : ∃ c', accept stamp now' url origin headerValue = some c' ∧ c'.timeless = c.timeless := by
  unfold accept at h
  split at h
  . contradiction
  . next read hread =>
    obtain ⟨read', hread', htimeless⟩ := Cookie.readFrom_timeless hread now'
    obtain ⟨name, value, expires, path, domain, httpOnly, secure, created, from_⟩ := read
    obtain ⟨_, _, expires', _, _, _, _, created', _⟩ := read'
    cases htimeless
    unfold accept
    rw [hread']
    dsimp only at h ⊢
    split at h
    . contradiction
    . next hdomain =>
      rw [if_neg hdomain]
      split at h
      . contradiction
      . next hhttp =>
        rw [if_neg hhttp]
        cases h
        exact ⟨_, rfl, rfl⟩

-- Whether a response sets a cookie of the same name and path, and without a domain if the other one is
def Sets (stamp : List UInt8 → UInt64) (url : List UInt8) (headers : List (List UInt8)) (c : Cookie) : Prop :=
  ∃ origin headerValue now c',
    Origin.ofURL url = some origin
      ∧ headerValue ∈ headers
      ∧ accept stamp now url origin headerValue = some c'
      ∧ c.same c' = true

section Take

variable {now : UInt64} {origin : Origin} {cookies : List Cookie} {headers : List (List UInt8)}

theorem sets_of_accept (horigin : Origin.ofURL url = some origin) {headerValue : List UInt8} (hmem : headerValue ∈ headers)
    {c' : Cookie} (haccept : accept stamp now url origin headerValue = some c') (hsame : c.same c' = true)
    : Sets stamp url headers c :=
  ⟨origin, headerValue, now, c', horigin, hmem, haccept, hsame⟩

-- Nothing that is the same cookie takes its place, and it is not set once more.
theorem mem_foldl_takeCookie (hne : ∀ headerValue ∈ headers, accept stamp now url origin headerValue ≠ some c)
    : c ∈ headers.foldl (takeCookie stamp now url origin) cookies ↔
        c ∈ cookies ∧ ∀ headerValue ∈ headers, ∀ c', accept stamp now url origin headerValue = some c' → c.same c' = false := by
  induction headers generalizing cookies with
  | nil => exact (and_iff_left fun _ hmem => absurd hmem List.not_mem_nil).symm
  | cons headerValue headers ih =>
    rw [List.forall_mem_cons] at hne
    rw [List.foldl_cons, ih hne.2, mem_takeCookie, or_iff_left hne.1, List.forall_mem_cons, and_assoc]

theorem same_self (c : Cookie) : c.same c = true := decide_eq_true ⟨rfl, rfl, rfl⟩

/-
A response for another cookie, or from another host.
-/
theorem mem_takeCookiesFrom (response : HTTPMessage)
    (hhost : hostOf url = hostOf c.origin → ¬Sets stamp url (response.headers.getAll (chars "set-cookie")) c)
    : c ∈ takeCookiesFrom stamp now cookies response url ↔
        c ∈ cookies ∧ ¬Sets stamp url (response.headers.getAll (chars "set-cookie")) c := by
  unfold takeCookiesFrom
  cases horigin : Origin.ofURL url with
  | none =>
    refine (and_iff_left ?_).symm
    rintro ⟨origin, _, _, _, hsome, -⟩
    rw [horigin] at hsome
    contradiction
  | some origin =>
    dsimp only
    have hne : ∀ headerValue ∈ response.headers.getAll (chars "set-cookie"),
        accept stamp now url origin headerValue ≠ some c := by
      intro headerValue hmem haccept
      have hurl := (accepted_of_accept haccept).origin_eq
      exact hhost (by rw [hurl]) (sets_of_accept horigin hmem haccept (same_self c))
    rw [mem_foldl_takeCookie hne]
    refine and_congr_right fun _ => ?_
    constructor
    . rintro hall ⟨origin', headerValue, now', c', horigin', hmem, haccept, hsame⟩
      rw [← Option.some.inj (horigin.symm.trans horigin')] at haccept
      obtain ⟨c'', haccept', htimeless⟩ := accept_timeless haccept now
      have hnot := hall headerValue hmem c'' haccept'
      rw [Cookie.same_of_timeless htimeless, hsame] at hnot
      contradiction
    . intro hnot headerValue hmem c' haccept
      rw [← Bool.not_eq_true]
      exact fun hsame => hnot (sets_of_accept horigin hmem haccept hsame)

end Take

section Run

variable {s s' : Client} {ops : List Op}

theorem now_le_of_step {op : Op} (hstep : step stamp s op = some s') : s.now ≤ s'.now := by
  cases op with
  | take response url =>
    cases hstep
    exact UInt64.le_refl _
  | prune sessionEnded =>
    cases hstep
    exact UInt64.le_refl _
  | advance now =>
    dsimp only [step] at hstep
    split at hstep
    . next hle =>
      cases hstep
      exact hle
    . contradiction

theorem now_le_of_run (hrun : Runs.run (step stamp) s ops = some s') : s.now ≤ s'.now := by
  have hinv (t : Client) (op : Op) (t' : Client) (hle : s.now ≤ t.now) (hstep : step stamp t op = some t') : s.now ≤ t'.now :=
    UInt64.le_trans hle (now_le_of_step hstep)
  exact @Runs.run_inv _ _ _ (fun t => s.now ≤ t.now) hinv s s' (UInt64.le_refl _) ops hrun

theorem isExpired_of_le {now now' : UInt64} (hle : now ≤ now') (h : isExpired now' c = false) : isExpired now c = false := by
  rw [isExpired_eq_false_iff] at h ⊢
  exact h.imp_right fun hlt => UInt64.lt_of_le_of_lt hle hlt

-- What does not end the life of a cookie by itself
structure Lasting (stamp : List UInt8 → UInt64) (ops : List Op) (c : Cookie) : Prop where
  session : c.expires = 0 → Op.prune true ∉ ops
  -- Nothing from its own host takes its place.
  host : ∀ response url, Op.take response url ∈ ops → hostOf url = hostOf c.origin →
    ¬Sets stamp url (response.headers.getAll (chars "set-cookie")) c

def Replaced (stamp : List UInt8 → UInt64) (c : Cookie) : Op → Prop
  | .take response url =>
    hostOf url ≠ hostOf c.origin ∧ Sets stamp url (response.headers.getAll (chars "set-cookie")) c
  | _ => False

theorem mem_step_iff {op : Op} (hlasting : Lasting stamp [op] c) (hfresh : isExpired s.now c = false)
    (hstep : step stamp s op = some s')
    : c ∈ s'.cookies ↔ c ∈ s.cookies ∧ ¬Replaced stamp c op := by
  cases op with
  | take response url =>
    cases hstep
    have hhost := hlasting.host response url List.mem_cons_self
    rw [mem_takeCookiesFrom response hhost]
    refine and_congr_right fun _ => not_congr ?_
    exact (and_iff_right_of_imp fun hsets heq => hhost heq hsets).symm
  | prune sessionEnded =>
    cases hstep
    have hkept : (!(sessionEnded && c.expires = 0) && !isExpired s.now c) = true := by
      rw [hfresh]
      cases sessionEnded with
      | false => rfl
      | true =>
        have hne : c.expires ≠ 0 := fun hzero => hlasting.session hzero List.mem_cons_self
        simp [hne]
    exact List.mem_filter.trans (and_congr_right fun _ => iff_of_true hkept not_false)
  | advance now =>
    dsimp only [step] at hstep
    split at hstep
    . cases hstep
      exact (and_iff_left not_false).symm
    . contradiction

theorem mem_run_iff (hlasting : Lasting stamp ops c) (hrun : Runs.run (step stamp) s ops = some s')
    (hfresh : isExpired s'.now c = false)
    : c ∈ s'.cookies ↔ c ∈ s.cookies ∧ ∀ op ∈ ops, ¬Replaced stamp c op := by
  induction ops generalizing s with
  | nil =>
    cases hrun
    exact (and_iff_left fun _ hmem => absurd hmem List.not_mem_nil).symm
  | cons op ops ih =>
    obtain ⟨s1, hstep, hrun1⟩ := Runs.run_cons hrun
    have hfirst : Lasting stamp [op] c := by
      refine ⟨fun hzero hmem => hlasting.session hzero ?_, fun response url hmem => hlasting.host response url ?_⟩
      . rw [List.mem_singleton.mp hmem]
        exact List.mem_cons_self
      . rw [List.mem_singleton.mp hmem]
        exact List.mem_cons_self
    have hrest : Lasting stamp ops c :=
      ⟨fun hzero hmem => hlasting.session hzero (List.mem_cons_of_mem _ hmem),
        fun response url hmem => hlasting.host response url (List.mem_cons_of_mem _ hmem)⟩
    rw [ih hrest hrun1, mem_step_iff hfirst (isExpired_of_le (now_le_of_run hrun) hfresh) hstep, and_assoc,
      List.forall_mem_cons]

end Run

section Path

variable {path rest : List UInt8}

theorem splitPath_head (h : rest.head? = some 47) : (Parts.get (URL.splitPath rest) .path).head? = some 47 := by
  obtain ⟨c, tail, rfl⟩ : ∃ c tail, rest = c :: tail := by
    cases rest with
    | nil => contradiction
    | cons c tail => exact ⟨c, tail, rfl⟩
  have hc : c = 47 := Option.some.inj h
  have hcut {d : UInt8} (hd : d ≠ 47) {before after : List UInt8} (hfound : URL.cut d (c :: tail) = some (before, after))
      : before.head? = some 47 := by
    have heq := (URL.cut_some hfound).1
    cases before with
    | nil =>
      rw [List.nil_append, List.cons.injEq] at heq
      exact absurd (heq.1.symm.trans hc) hd
    | cons e before =>
      rw [List.cons_append, List.cons.injEq] at heq
      rw [← heq.1, hc]
      rfl
  unfold URL.splitPath
  rw [if_neg (List.cons_ne_nil _ _)]
  cases hquestion : URL.cut 63 (c :: tail) with
  | none =>
    dsimp only
    cases hhash : URL.cut 35 (c :: tail) with
    | none => exact h
    | some found => exact hcut (by decide) hhash
  | some found =>
    have hhead := hcut (by decide) hquestion
    dsimp only
    split
    . exact hhead
    . exact hhead

-- The path on a host
theorem getPath_of_host {url : List UInt8} (h : URL.getHost url ≠ [])
    : URL.getPath url = [] ∨ (URL.getPath url).head? = some 47 := by
  obtain ⟨scheme, b, rest, hsplit, -, -, -, hrest⟩ := URL.split_of_host h
  have hpath : URL.getPath url = Parts.get (URL.splitPath rest) .path := by
    unfold URL.getPath URL.getPart
    rw [hsplit]
    dsimp only
    rw [if_pos rfl, URL.get_cons_ne (by decide), URL.get_append _ _ _ (URL.find_authority .path b)]
  rw [hpath]
  rcases hrest with rfl | hhead
  . exact Or.inl rfl
  . exact Or.inr (splitPath_head hhead)

theorem defaultPath_prefix (h : path.head? = some 47) : IsPathPrefix (defaultPath path) path := by
  unfold defaultPath
  rw [if_neg (not_not_intro h)]
  cases hslash : MIMEHeaders.rfind path 47 path.length with
  | none => exact ⟨[], (List.append_nil path).symm, Or.inl rfl⟩
  | some slash =>
    dsimp only
    by_cases hzero : slash = 0
    . rw [if_neg (not_not_intro hzero)]
      refine ⟨path.drop 1, (List.take_append_drop 1 path).symm, Or.inr (Or.inl ?_)⟩
      cases path with
      | nil => contradiction
      | cons c path => exact h
    . rw [if_pos hzero]
      refine ⟨path.drop slash, (List.take_append_drop slash path).symm, Or.inr (Or.inr ?_)⟩
      rw [List.head?_drop]
      exact MIMEHeaders.rfind_some hslash

theorem tolower_append (xs ys : List UInt8) : tolower (xs ++ ys) = tolower xs ++ tolower ys := List.map_append

theorem head?_tolower (h : path.head? = some 47) : (tolower path).head? = some 47 := by
  unfold tolower
  rw [List.head?_map, h]
  rfl

-- A prefix is found if there is no letter in upper case.
theorem prefix_tolower_iff (h : IsPathPrefix path rest) : IsPathPrefix path (tolower rest) ↔ tolower path = path := by
  obtain ⟨tail, rfl, hend⟩ := h
  rw [tolower_append]
  constructor
  . rintro ⟨tail', heq, -⟩
    have hlength : (tolower path).length = path.length := List.length_map _
    exact (List.append_inj heq hlength).1
  . intro hlower
    rw [hlower]
    refine ⟨tolower tail, rfl, ?_⟩
    rcases hend with rfl | hlast | hnext
    . exact Or.inl rfl
    . exact Or.inr (Or.inl hlast)
    . exact Or.inr (Or.inr (head?_tolower hnext))

end Path

/-
What is set by a response that comes from a URL, with the headers before and after it.
-/
structure Visit where
  url : List UInt8
  response : HTTPMessage
  before : List (List UInt8)
  headerValue : List UInt8
  after : List (List UInt8)
  cookie : Cookie

namespace Visit

-- How it is put into the jar
def stored (v : Visit) (now : UInt64) : Cookie :=
  { v.cookie with
    path := if v.cookie.path.head? ≠ some 47 then defaultPath (tolower (URL.getPath v.url)) else v.cookie.path
    created := now
    origin := v.url }

/-
Whether it should be in a request for the same URL later on: it has no domain, and a path, if any, that the URL is in. It
has not expired then, and nothing from the same host has replaced it.
-/
structure Due (stamp : List UInt8 → UInt64) (v : Visit) (s : Client) (ops : List Op) (s' : Client) : Prop where
  http : schemeOf v.url = chars "http" ∨ schemeOf v.url = chars "https"
  host : URL.getHost v.url ≠ []
  headers : v.response.headers.getAll (chars "set-cookie") = v.before ++ v.headerValue :: v.after
  read : Cookie.readFrom stamp s.now v.headerValue = some v.cookie
  domain : v.cookie.domain = []
  path : v.cookie.path = [] ∨ IsPathPrefix v.cookie.path (pathOf v.url)
  secure : v.cookie.secure = true → schemeOf v.url = chars "https"
  run : Runs.run (step stamp) s (.take v.response v.url :: ops) = some s'
  fresh : isExpired s'.now v.cookie = false
  after : ¬Sets stamp v.url v.after (v.stored s.now)
  lasting : Lasting stamp ops (v.stored s.now)

variable {stamp : List UInt8 → UInt64} {v : Visit} {s s' : Client} {ops : List Op}

theorem ofURL_of_host {url : List UInt8} (h : URL.getHost url ≠ []) : Origin.ofURL url = some (originOf url) := by
  obtain ⟨scheme, b, rest, hsplit, -⟩ := URL.split_of_host h
  cases horigin : Origin.ofURL url with
  | some origin => rw [Origin.ofURL_some horigin]
  | none =>
    unfold Origin.ofURL at horigin
    rw [hsplit] at horigin
    contradiction

theorem Due.accept (h : Due stamp v s ops s')
    : CookieJar.accept stamp s.now v.url (originOf v.url) v.headerValue = some (v.stored s.now) := by
  have hhttp : (originOf v.url).isHTTP = true := decide_eq_true h.http
  unfold CookieJar.accept
  rw [h.read]
  dsimp only
  rw [if_neg fun hdomain => hdomain.1 h.domain, hhttp, if_neg fun hnot => absurd hnot.2 (by decide)]
  rfl

theorem Due.mem_cookies_iff (h : Due stamp v s ops s')
    : v.stored s.now ∈ s'.cookies ↔ ∀ op ∈ ops, ¬Replaced stamp (v.stored s.now) op := by
  obtain ⟨s1, hstep, hrun⟩ := Runs.run_cons h.run
  cases hstep
  rw [mem_run_iff h.lasting hrun h.fresh]
  refine and_iff_right ?_
  have horigin := ofURL_of_host h.host
  unfold takeCookiesFrom
  rw [horigin]
  dsimp only
  rw [h.headers, List.foldl_append, List.foldl_cons]
  have hnot : ∀ headerValue ∈ v.after, ∀ c',
      CookieJar.accept stamp s.now v.url (originOf v.url) headerValue = some c' → (v.stored s.now).same c' = false := by
    intro headerValue hmem c' haccept
    rw [← Bool.not_eq_true]
    exact fun hsame => h.after (sets_of_accept horigin hmem haccept hsame)
  have hne : ∀ headerValue ∈ v.after,
      CookieJar.accept stamp s.now v.url (originOf v.url) headerValue ≠ some (v.stored s.now) := by
    intro headerValue hmem haccept
    have hfalse := hnot headerValue hmem _ haccept
    rw [same_self] at hfalse
    contradiction
  exact (mem_foldl_takeCookie hne).mpr ⟨mem_takeCookie.mpr (Or.inr h.accept), hnot⟩

theorem pathOf_head {url : List UInt8} (h : URL.getHost url ≠ []) : (pathOf url).head? = some 47 := by
  unfold pathOf
  rcases getPath_of_host h with hnil | hhead
  . rw [if_pos hnil]
    rfl
  . split
    . rfl
    . exact hhead

theorem Due.path_iff (h : Due stamp v s ops s')
    : pathMatch (v.stored s.now).path (tolower (pathOf v.url)) = true ↔ tolower v.cookie.path = v.cookie.path := by
  have hhead := pathOf_head h.host
  by_cases hnone : v.cookie.path = []
  . have hstored : (v.stored s.now).path = defaultPath (tolower (URL.getPath v.url)) := if_pos (by rw [hnone]; simp)
    rw [hnone, hstored, pathMatch_iff (defaultPath_ne_nil _)]
    refine iff_of_true ?_ rfl
    unfold pathOf at hhead ⊢
    split
    . next hnil =>
      rw [hnil]
      exact ⟨[], rfl, Or.inl rfl⟩
    . next hne =>
      rw [if_neg hne] at hhead
      exact defaultPath_prefix (head?_tolower hhead)
  . have hprefixed := h.path.resolve_left hnone
    have hslash : v.cookie.path.head? = some 47 := by
      obtain ⟨rest, hrest, -⟩ := hprefixed
      rw [hrest, List.head?_append_of_ne_nil _ hnone] at hhead
      exact hhead
    have hstored : (v.stored s.now).path = v.cookie.path := if_neg (not_not_intro hslash)
    rw [hstored, pathMatch_iff hnone]
    exact prefix_tolower_iff hprefixed

/--
A cookie that is due is sent if and only if the host of the URL has been given in lower case, the path of the cookie, if
any, has no letter in upper case, and no other host has set a cookie of the same name and path in between.
-/
theorem sent_iff_due (stamp : List UInt8 → UInt64) (v : Visit) (s : Client) (ops : List Op) (s' : Client)
    (h : Due stamp v s ops s')
    : v.stored s.now ∈ sent s' v.url ↔
        hostOf v.url = URL.getHost v.url ∧ tolower v.cookie.path = v.cookie.path
          ∧ ∀ op ∈ ops, ¬Replaced stamp (v.stored s.now) op := by
  have htarget : target v.url
      = some { scheme := schemeOf v.url, host := hostOf v.url, path := tolower (pathOf v.url) } := by
    cases hgoal : target v.url with
    | some goal => rw [target_some hgoal]
    | none =>
      unfold target at hgoal
      rw [ofURL_of_host h.host] at hgoal
      contradiction
  unfold sent
  rw [htarget]
  dsimp only
  have hdomain : (v.stored s.now).domain = [] := h.domain
  rw [List.mem_filter, h.mem_cookies_iff, isSent_iff, if_neg (not_not_intro hdomain), h.path_iff]
  constructor
  . rintro ⟨hkept, -, hhost, hpath, -, -⟩
    exact ⟨hhost, hpath, hkept⟩
  . rintro ⟨hhost, hpath, hkept⟩
    exact ⟨hkept, h.fresh, hhost, hpath, h.secure, fun _ => h.http⟩

-- `a=b`, from `http://h/` or `http://H/`
def plainVisit (host : UInt8) : Visit where
  url := [104, 116, 116, 112, 58, 47, 47, host, 47]
  response := { setResponse with headers := { maxLine := 0, xml := [(chars "set-cookie", [97, 61, 98])] } }
  before := []
  headerValue := [97, 61, 98]
  after := []
  cookie := { setCookie with path := [], origin := [] }

def visited (host : UInt8) : Client := { cookies := [(plainVisit host).stored 0], now := 0 }

theorem due_plain {host : UInt8} (hhttp : schemeOf (plainVisit host).url = chars "http")
    (hhost : URL.getHost (plainVisit host).url ≠ [])
    (hrun : Runs.run (step fun _ => 0) { cookies := [], now := 0 } [.take (plainVisit host).response (plainVisit host).url]
      = some (visited host))
    : Due (fun _ => 0) (plainVisit host) { cookies := [], now := 0 } [] (visited host) := by
  refine ⟨Or.inl hhttp, hhost, rfl, rfl, rfl, Or.inl rfl, ?_, hrun, rfl, ?_, ?_, ?_⟩
  . intro hsecure
    contradiction
  . rintro ⟨_, _, _, _, -, hmem, -⟩
    contradiction
  . intro _ hmem
    contradiction
  . intro _ _ hmem
    contradiction

theorem sent_iff_due_lower : (plainVisit 104).stored 0 ∈ sent (visited 104) (plainVisit 104).url := by
  have hdue : Due (fun _ => 0) (plainVisit 104) { cookies := [], now := 0 } [] (visited 104) :=
    due_plain rfl (by decide) rfl
  exact (sent_iff_due _ _ _ _ _ hdue).mpr ⟨rfl, rfl, fun _ hmem => absurd hmem List.not_mem_nil⟩

-- The host in upper case is compared to the one in lower case.
theorem not_sent_due
    : ¬∀ (stamp : List UInt8 → UInt64) (v : Visit) (s : Client) (ops : List Op) (s' : Client),
        Due stamp v s ops s' → v.stored s.now ∈ sent s' v.url := by
  intro hall
  have hsent := hall _ _ _ _ _ (@due_plain 72 rfl (by decide) rfl)
  revert hsent
  decide

end Visit

end CookieJar

end Web
end ObTools
