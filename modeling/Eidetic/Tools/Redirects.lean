import Eidetic.Tools.Locations

/-!
# Where redirects lead

Every redirect that a run of `run_fetch_url` receives, along the redirects that it
follows, and what is asked of them: that the request for each location is the one
that the location refers to. Beside it the run has to return, which fails only at
the first `_validate_url`, outside of the handlers (`returns_iff`), to make five
requests at most (`length_runFetchUrl`, one for each hop), and to end with the text
of a response that has some (`fetchHops_success`, along the hops up to it).

The condition on a redirect is equivalent to a `RightLocation` at each hop, so by
`everyRedirect_congr` it is along the whole run.
-/

namespace Eidetic.Tools

open Eidetic.Lib Eidetic.Py

/-! ## All of a run -/

section

variable (u : Unicode) (w : Web)

/-- A hop is answered by a redirect with a location. -/
def RedirectsBy (hop : Nat) (current location next : Text) : Prop :=
  ∃ hostname r, Requests u w hop current hostname (.response r) ∧ r.isRedirect = true ∧
    r.location = location ∧ redirectUrl u current location = .ok next

/-- A condition on the current URL, a location and where it leads, for every
redirect of a hop and of `n` more. -/
def EveryRedirect (P : Text → Text → Text → Prop) : Nat → Nat → Text → Prop
  | 0, hop, current => ∀ location next, RedirectsBy u w hop current location next →
      P current location next
  | n + 1, hop, current => ∀ location next, RedirectsBy u w hop current location next →
      P current location next ∧ EveryRedirect P n (hop + 1) next

/-- A hop, or one of `n` more, is answered at a URL. -/
def Answered (url : Text) (r : Response) : Nat → Nat → Text → Prop
  | 0, hop, current => url = current ∧ ∃ hostname, Requests u w hop current hostname (.response r)
  | n + 1, hop, current =>
    (url = current ∧ ∃ hostname, Requests u w hop current hostname (.response r)) ∨
      ∃ next, Redirects u w hop current next ∧ Answered url r n (hop + 1) next

/-- The response is a success of an allowed type that has some text. -/
structure HasText (r : Response) : Prop where
  success : 200 ≤ r.status ∧ r.status ≤ 299
  body : r.body ≠ []
  allowed : u.lower (strip (before ';' r.contentType)) = [] ∨
    u.lower (strip (before ';' r.contentType)) ∈ allowedCt.map String.toList
  text : strip (w.soup r.body).2 ≠ []

/-- What is asked of `run_fetch_url`: it returns, it follows every redirect to
where the location refers, it makes five requests at most, and the text is that
of a response that has some. -/
structure FollowsRedirects (normalizePath : Text → Text) (url : Text) : Prop where
  returns : ∀ e, (runFetchUrl u w url).2 ≠ .raised e
  targets : EveryRedirect u w (RefersTo u normalizePath) 4 0 url
  requests : (runFetchUrl u w url).1.length ≤ 5
  text : ∀ current r, Answered u w current r 4 0 url → HasText u w r →
    ∃ header, (runFetchUrl u w url).2 = .result (header ++ (w.soup r.body).2.take 8000)

/-- The first URL can be read, and its port and its name can be looked up. -/
def Readable (url : Text) : Prop :=
  ∃ parsed, urlparse u url = .ok parsed ∧
    ((parsed.scheme = http ∨ parsed.scheme = https) →
      ∀ hostname, parsed.hostname u = some hostname →
        ∃ port, parsed.port = .ok port ∧ (port ∈ allowedPorts → w.lookup 0 hostname ≠ .raised))

variable {u w}

theorem resolveAndValidate_raised_iff (hostname : Text) (l : Lookup) :
    (∃ e, resolveAndValidate hostname l = .raised e) ↔ l = .raised := by
  cases l with
  | gaierror message => simp [resolveAndValidate]
  | raised => simp [resolveAndValidate]
  | infos addresses =>
    refine iff_of_false ?_ (by simp)
    rintro ⟨e, he⟩
    unfold resolveAndValidate at he
    dsimp only at he
    split at he
    next => exact absurd he (by simp)
    next => split at he <;> exact absurd he (by simp)

theorem validateUrl_raised_iff {url : Text} :
    (∀ e, validateUrl u w 0 url ≠ .raised e) ↔ Readable u w url := by
  unfold validateUrl Readable
  cases hparsed : urlparse u url with
  | error e => simp
  | ok parsed =>
    dsimp only
    by_cases hscheme : parsed.scheme ≠ http ∧ parsed.scheme ≠ https
    · rw [if_pos hscheme]
      refine iff_of_true (by simp) ⟨parsed, rfl, fun hor => ?_⟩
      exact absurd hscheme (Decidable.or_iff_not_not_and_not.mp hor)
    · rw [if_neg hscheme]
      cases hname : parsed.hostname u with
      | none => exact iff_of_true (by simp) ⟨parsed, rfl, by simp [hname]⟩
      | some hostname =>
        have hor := Decidable.or_iff_not_not_and_not.mpr hscheme
        cases hport : parsed.port with
        | error e => simp [hor, hname, hport]
        | ok port =>
          dsimp only
          by_cases hallowed : port ∉ allowedPorts
          · rw [if_pos hallowed]
            simp [hname, hport, hallowed]
          · rw [if_neg hallowed]
            have hraised := not_congr (resolveAndValidate_raised_iff hostname (w.lookup 0 hostname))
            rw [not_exists] at hraised
            simpa [hor, hname, hport, not_not.mp hallowed] using hraised

theorem fetchHop_ne_raised (url : Text) (hop : Nat) (current : Text) (t : Target) (e : Failure) :
    (fetchHop u w url hop current t).2 ≠ .done (.raised e) := by
  unfold fetchHop
  split
  next => simp
  next =>
    split
    next =>
      split
      next => simp
      next => split <;> simp
    next => split <;> simp

theorem fetchHops_ne_raised (url : Text) (n hop : Nat) (current : Text) (t : Target) (e : Failure) :
    (fetchHops u w url n hop current t).2 ≠ .raised e := by
  induction n generalizing hop current t with
  | zero =>
    have hhop := fetchHop_ne_raised (u := u) (w := w) url hop current t e
    rw [fetchHops]
    split
    next f hf =>
      rw [hf] at hhop
      exact fun heq => hhop (congrArg HopEnd.done heq)
    next => simp
  | succ n ih =>
    have hhop := fetchHop_ne_raised (u := u) (w := w) url hop current t e
    rw [fetchHops]
    split
    next f hf =>
      rw [hf] at hhop
      exact fun heq => hhop (congrArg HopEnd.done heq)
    next location t' _ _ => exact ih (hop + 1) location t'

theorem returns_iff {url : Text} :
    (∀ e, (runFetchUrl u w url).2 ≠ .raised e) ↔ Readable u w url := by
  rw [← validateUrl_raised_iff]
  unfold runFetchUrl
  cases validateUrl u w 0 url with
  | rejected reason => simp
  | raised e => simp
  | accepted t => exact iff_of_true (fetchHops_ne_raised url 4 0 url t) (by simp)

/-- A hop makes one connection at most. -/
theorem length_pinnedFetch (hop : Nat) (current : Text) (t : Target) :
    (pinnedFetch u w hop current t).1.length ≤ 1 := by
  unfold pinnedFetch
  split
  next => exact Nat.zero_le _
  next => split <;> simp

theorem length_fetchHops (url : Text) (n hop : Nat) (current : Text) (t : Target) :
    (fetchHops u w url n hop current t).1.length ≤ n + 1 := by
  induction n generalizing hop current t with
  | zero =>
    have hhop := length_pinnedFetch (u := u) (w := w) hop current t
    rw [← fetchHop_connections url] at hhop
    rw [fetchHops]
    split
    next hf => rwa [hf] at hhop
    next hf => rwa [hf] at hhop
  | succ n ih =>
    have hhop := length_pinnedFetch (u := u) (w := w) hop current t
    rw [← fetchHop_connections url] at hhop
    rw [fetchHops]
    split
    next made f hf =>
      rw [hf] at hhop
      exact Nat.le_trans hhop (Nat.le_add_left ..)
    next made location t' _ hf =>
      have hone : made.length ≤ 1 := by rwa [hf] at hhop
      have hmore := ih (hop + 1) location t'
      show (made ++ _).length ≤ n + 1 + 1
      rw [List.length_append]
      omega

theorem length_runFetchUrl (url : Text) : (runFetchUrl u w url).1.length ≤ 5 := by
  unfold runFetchUrl
  split
  next => simp
  next => simp
  next t _ => exact length_fetchHops url 4 0 url t

/-! ### The last response -/

theorem accepted_of_answered {url current : Text} {r : Response} {n hop : Nat}
    (h : Answered u w url r n hop current) : ∃ t, validateUrl u w hop current = .accepted t := by
  cases n with
  | zero =>
    obtain ⟨-, hostname, t, -, -, ht, -⟩ := h
    exact ⟨t, ht⟩
  | succ n =>
    rcases h with ⟨-, hostname, t, -, -, ht, -⟩ | ⟨next, ⟨hostname, _, ⟨t, -, -, ht, -⟩, -⟩, -⟩
    · exact ⟨t, ht⟩
    · exact ⟨t, ht⟩

/-- A success ends the loop. -/
theorem fetchHop_success (url : Text) {current hostname : Text} {hop : Nat} {t : Target} {r : Response}
    (h : validateUrl u w hop current = .accepted t)
    (hrequests : Requests u w hop current hostname (.response r))
    (hsuccess : 200 ≤ r.status ∧ r.status ≤ 299) :
    (fetchHop u w url hop current t).2 = .done (.result (pageText u w url current r)) := by
  have hredirect : r.isRedirect = false := by
    unfold Response.isRedirect
    rw [Bool.and_eq_false_iff]
    simp
    omega
  have hname : t.hostname = hostname := by
    obtain ⟨t', -, -, ht', hname, -⟩ := hrequests
    obtain rfl : t = t' := by simpa using h.symm.trans ht'
    exact hname
  rw [← hname] at hrequests
  have hfetch := (pinnedFetch_ok_iff h).mpr hrequests
  unfold fetchHop
  split
  next e he =>
    rw [he] at hfetch
    exact absurd hfetch (by simp)
  next reply hreply =>
    rw [hreply] at hfetch
    obtain rfl := Except.ok.inj hfetch
    rw [if_neg (by rw [hredirect]; simp), if_pos hsuccess]

theorem fetchHops_success {url last : Text} {r : Response}
    (hsuccess : 200 ≤ r.status ∧ r.status ≤ 299) {n hop : Nat} {current : Text} {t : Target}
    (h : validateUrl u w hop current = .accepted t) (hanswered : Answered u w last r n hop current) :
    (fetchHops u w url n hop current t).2 = .result (pageText u w url last r) := by
  induction n generalizing hop current t with
  | zero =>
    obtain ⟨rfl, hostname, hrequests⟩ := hanswered
    have hhop := fetchHop_success url h hrequests hsuccess
    rw [fetchHops]
    split
    next f hf =>
      rw [hf] at hhop
      exact HopEnd.done.inj hhop
    next hf =>
      rw [hf] at hhop
      exact absurd hhop (by simp)
  | succ n ih =>
    rcases hanswered with ⟨rfl, hostname, hrequests⟩ | ⟨next, hredirects, hmore⟩
    · have hhop := fetchHop_success url h hrequests hsuccess
      rw [fetchHops]
      split
      next f hf =>
        rw [hf] at hhop
        exact HopEnd.done.inj hhop
      next hf =>
        rw [hf] at hhop
        exact absurd hhop (by simp)
    · obtain ⟨t', ht'⟩ := accepted_of_answered hmore
      obtain ⟨_, hfollow⟩ := follow_of_redirects url h hredirects ht'
      rw [fetchHops]
      split
      next f hf =>
        rw [hf] at hfollow
        exact absurd hfollow (by simp)
      next location t'' _ hf =>
        rw [hf] at hfollow
        obtain ⟨rfl, rfl, -⟩ : location = next ∧ t'' = t' ∧ _ := by simpa using hfollow
        exact ih ht' hmore

theorem pageText_of_hasText (url current : Text) {r : Response} (h : HasText u w r) :
    ∃ header, pageText u w url current r = header ++ (w.soup r.body).2.take 8000 := by
  have hallowed : (!(u.lower (strip (before ';' r.contentType))).isEmpty &&
      !allowedCt.any (·.toList == u.lower (strip (before ';' r.contentType)))) = false := by
    rw [Bool.and_eq_false_iff]
    rcases h.allowed with hnil | hmem
    · left
      rw [hnil]
      rfl
    · right
      obtain ⟨ct, hct, heq⟩ := List.mem_map.mp hmem
      rw [Bool.not_eq_false', List.any_eq_true]
      exact ⟨ct, hct, by simpa using heq⟩
  unfold pageText
  rw [if_neg (by simpa using h.body)]
  dsimp only
  rw [hallowed, if_neg (by simp), if_neg (by simpa using h.text)]
  exact ⟨_, rfl⟩

theorem runFetchUrl_text {url last : Text} {r : Response}
    (hanswered : Answered u w last r 4 0 url) (h : HasText u w r) :
    ∃ header, (runFetchUrl u w url).2 = .result (header ++ (w.soup r.body).2.take 8000) := by
  obtain ⟨t, ht⟩ := accepted_of_answered hanswered
  obtain ⟨header, hpage⟩ := pageText_of_hasText url last h
  refine ⟨header, ?_⟩
  unfold runFetchUrl
  rw [ht]
  dsimp only
  rw [fetchHops_success h.success ht hanswered, hpage]

/-! ### Exactly when -/

theorem everyRedirect_congr {P Q : Text → Text → Text → Prop}
    (h : ∀ hop current location next, RedirectsBy u w hop current location next →
      (P current location next ↔ Q current location next)) (n hop : Nat) (current : Text) :
    EveryRedirect u w P n hop current ↔ EveryRedirect u w Q n hop current := by
  induction n generalizing hop current with
  | zero => exact forall_congr' fun _ => forall_congr' fun _ => forall_congr' fun hby => h _ _ _ _ hby
  | succ n ih =>
    exact forall_congr' fun _ => forall_congr' fun _ => forall_congr' fun hby =>
      and_congr (h _ _ _ _ hby) (ih _ _)

end

/-- The dot segments are dropped, and a final `/` behind one. -/
def normalizedPath (path : Text) : Text :=
  if EndsInDots path then rooted (removeDotSegments path).dropLast else removeDotSegments path

theorem dropsDots_normalizedPath : DropsDots normalizedPath :=
  ⟨fun _ _ h => if_neg h, fun _ _ h => if_pos h⟩

/-- A page that has moved to `location`, where a page answers. -/
def movedWeb (location : Text) : Web where
  lookup _ _ := .infos ["1.1.1.1".toList]
  send hop _ :=
    if hop = 0 then .response { status := 302, location } else .response { status := 200 }
  client _ := []
  soup _ := ([], [])

theorem moved_accepted (location : Text) :
    validateUrl asciiUnicode (movedWeb location) 0 "http://h/d/old".toList
      = .accepted ⟨['h'], "1.1.1.1".toList, ["1.1.1.1".toList]⟩ := by rfl

theorem moved_redirects {location next : Text}
    (hnext : redirectUrl asciiUnicode "http://h/d/old".toList location = .ok next) :
    RedirectsBy asciiUnicode (movedWeb location) 0 "http://h/d/old".toList location next :=
  ⟨['h'], _, ⟨_, 80, "http://1.1.1.1:80/d/old".toList, moved_accepted location, rfl, rfl, rfl, by simp⟩,
    rfl, rfl, hnext⟩

theorem right_of_moved {location next : Text}
    (hnext : redirectUrl asciiUnicode "http://h/d/old".toList location = .ok next)
    (h : FollowsRedirects asciiUnicode (movedWeb location) normalizedPath "http://h/d/old".toList) :
    RightLocation asciiUnicode normalizedPath "http://h/d/old".toList location :=
  (refersTo_redirectUrl_iff dropsDots_normalizedPath (moved_accepted location) hnext).mp
    (h.targets _ _ (moved_redirects hnext)).1

end Eidetic.Tools
