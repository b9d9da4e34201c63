import Mathlib.Data.List.DropRight
import EventUpload.Backend.Web
import EventUpload.Options.Check

/-!
# Endpoints and the addresses at them

An endpoint is fit for use if it is a web address once the blanks around it are taken off. A client
keeps the endpoint as it was given, less the slashes at its end, and puts the place of an invocation
behind it. So the blanks stay in the addresses that it asks for, and nobody has looked for a host behind
the scheme.

`HostedEndpoint` has the endpoints with a host, in parts, and says what the addresses at them look like.
An endpoint that may be used starts, after blanks, with a scheme and something else; the addresses at it
are of this form exactly if there are no blanks in front, and if what stands behind the scheme is a host
without any (`BackendOptions.addressed_iff`).

Taking an endpoint apart is a structure with its conditions and not a parser, as nothing in the program
does so. The host ends at the first slash, question mark or number sign; what follows up to the slashes
at the end is kept as it is. `hostPart_eq` is why there are not two ways to take an endpoint apart, and
the equivalence depends on that: from an endpoint that is in the form one has to get back to the text.

Blanks behind a path belong to it and make an odd address, but one at the right host; behind a bare host
they belong to the host, and the condition fails.
-/

set_option autoImplicit false

namespace EventUpload

open Text (isBlankChar trimChars)

/-! ## The parts of an endpoint -/

/-- What an address of the web starts with. -/
def webSchemes : List String := ["http://", "https://"]

/-- Whether a character ends the host part of an address. -/
def endsHost (c : Char) : Bool := Url.isSlash c || c = '?' || c = '#'

/-- The host part of what follows a scheme. -/
def hostPart (cs : List Char) : List Char := cs.takeWhile (!endsHost ·)

/-- An endpoint that names a host. -/
structure HostedEndpoint where
  scheme : String
  host : List Char
  /-- What follows the host, up to the slashes at the end. -/
  rest : List Char
  slashes : Nat
  scheme_mem : scheme ∈ webSchemes
  host_ne_nil : host ≠ []
  host_clean : ∀ c ∈ host, isBlankChar c = false ∧ endsHost c = false
  rest_opens : ∀ c ∈ rest.head?, endsHost c = true
  rest_closes : rest.getLast? ≠ some '/'

namespace HostedEndpoint

def chars (e : HostedEndpoint) : List Char :=
  e.scheme.toList ++ e.host ++ e.rest ++ List.replicate e.slashes '/'

/-- The address of a place of an invocation at the endpoint. -/
def address (e : HostedEndpoint) (invocation leaf : String) : String :=
  e.scheme ++ String.ofList e.host ++ String.ofList e.rest
    ++ "/v1/invocations/" ++ invocation ++ "/" ++ leaf

end HostedEndpoint

/-! ## Slashes and blanks at the ends -/

/-- Taking off the slashes at the end stops at the last character that is none. -/
theorem rdropWhile_slashes {cs : List Char} (h : cs.getLast? ≠ some '/') (n : Nat) :
    (cs ++ List.replicate n '/').rdropWhile (· = '/') = cs := by
  induction n with
  | zero =>
    rw [List.replicate_zero, List.append_nil, List.rdropWhile_eq_self_iff]
    intro hne hslash
    rw [List.getLast?_eq_some_getLast hne] at h
    exact h (congrArg some (of_decide_eq_true hslash))
  | succ n ih =>
    rw [List.replicate_succ', ← List.append_assoc, List.rdropWhile_concat, if_pos (by simp), ih]

/-- A text is what is left without the slashes at its end, and these. -/
theorem exists_slashes (cs : List Char) :
    ∃ kept n, cs = kept ++ List.replicate n '/' ∧ kept.getLast? ≠ some '/' := by
  induction cs using List.reverseRecOn with
  | nil => exact ⟨[], 0, rfl, by simp⟩
  | append_singleton cs c ih =>
    by_cases hc : c = '/'
    · obtain ⟨kept, n, rfl, hkept⟩ := ih
      refine ⟨kept, n + 1, ?_, hkept⟩
      rw [hc, List.append_assoc, ← List.replicate_succ']
    · exact ⟨cs ++ [c], 0, by simp, by simp [hc]⟩

/-- What is in front of a trimmed text is blank, and what is in it stands behind that. -/
theorem exists_of_prefix_trimChars {cs start : List Char} (h : start <+: trimChars cs) :
    ∃ front more, cs = front ++ start ++ more ∧ ∀ c ∈ front, isBlankChar c = true := by
  have hprefix : start <+: cs.dropWhile isBlankChar :=
    h.trans (List.rdropWhile_prefix isBlankChar (cs.dropWhile isBlankChar))
  obtain ⟨more, hmore⟩ := hprefix
  refine ⟨cs.takeWhile isBlankChar, more, ?_, fun c hc => List.mem_takeWhile_imp hc⟩
  rw [List.append_assoc, hmore, List.takeWhile_append_dropWhile]

/-- Trimming takes off no more than the blanks. -/
theorem trimChars_of_blank {front cs back : List Char} (hfront : ∀ c ∈ front, isBlankChar c = true)
    (hback : ∀ c ∈ back, isBlankChar c = true) (hhead : ∀ c ∈ cs.head?, isBlankChar c = false)
    (hlast : ∀ c ∈ cs.getLast?, isBlankChar c = false) (hne : cs ≠ []) :
    trimChars (front ++ cs ++ back) = cs := by
  have hdrop : (front ++ cs ++ back).dropWhile isBlankChar = cs ++ back := by
    rw [List.append_assoc, List.dropWhile_append_of_pos hfront]
    cases cs with
    | nil => exact absurd rfl hne
    | cons c cs => rw [List.cons_append, List.dropWhile_cons, if_neg (by simp [hhead c rfl])]
  have hrdrop : (cs ++ back).rdropWhile isBlankChar = cs.rdropWhile isBlankChar := by
    rw [List.rdropWhile, List.reverse_append, List.dropWhile_append_of_pos (by simpa using hback)]
    rfl
  calc trimChars (front ++ cs ++ back)
      = ((front ++ cs ++ back).dropWhile isBlankChar).rdropWhile isBlankChar := rfl
    _ = cs.rdropWhile isBlankChar := by rw [hdrop, hrdrop]
    _ = cs := List.rdropWhile_eq_self_iff.mpr fun hl => by
        simp [hlast _ (List.getLast?_eq_some_getLast hl)]

/-! ## Endpoints that may be used -/

/-- **An endpoint that may be used** has a scheme behind some blanks, and behind the scheme there is
something that is not blank. -/
theorem exists_scheme {endpoint : String} (h : UploadOptions.isWebAddress endpoint = true) :
    ∃ front scheme more, (∀ c ∈ front, isBlankChar c = true) ∧ scheme ∈ webSchemes ∧
      (∃ c ∈ more, isBlankChar c = false) ∧ endpoint.toList = front ++ scheme.toList ++ more := by
  simp only [UploadOptions.isWebAddress, Bool.and_eq_true, Bool.or_eq_true, Bool.not_eq_true',
    List.isPrefixOf_iff_prefix, ← Bool.not_eq_true, List.isSuffixOf_iff_suffix] at h
  obtain ⟨hstarts, hends⟩ := h
  have hscheme : ∃ scheme ∈ webSchemes, scheme.toList <+: trimChars endpoint.toList := by
    rcases hstarts with hstarts | hstarts
    · exact ⟨"http://", by simp [webSchemes], hstarts⟩
    · exact ⟨"https://", by simp [webSchemes], hstarts⟩
  obtain ⟨scheme, hmem, hprefix⟩ := hscheme
  obtain ⟨front, more, heq, hfront⟩ := exists_of_prefix_trimChars hprefix
  refine ⟨front, scheme, more, hfront, hmem, ?_, heq⟩
  by_contra hblank
  push Not at hblank
  have htrim : trimChars endpoint.toList = scheme.toList := by
    rw [heq]
    simp only [webSchemes, List.mem_cons, List.not_mem_nil, or_false] at hmem
    have hclean : isBlankChar 'h' = false ∧ isBlankChar '/' = false := by decide
    refine trimChars_of_blank hfront (fun c hc => by simpa using hblank c hc) ?_ ?_ ?_ <;>
      rcases hmem with rfl | rfl <;> simp [hclean]
  rw [htrim] at hends
  simp only [webSchemes, List.mem_cons, List.not_mem_nil, or_false] at hmem
  rcases hmem with rfl | rfl
  · exact hends (by decide)
  · exact hends (by decide)

namespace HostedEndpoint

variable {e : HostedEndpoint}

/-- Without the slashes at its end an endpoint does not end with a slash. -/
theorem getLast?_ne_slash (e : HostedEndpoint) :
    (e.scheme.toList ++ e.host ++ e.rest).getLast? ≠ some '/' := by
  intro hslash
  cases hrest : e.rest.getLast? with
  | some c =>
    rw [List.getLast?_append, hrest, Option.some_or] at hslash
    exact e.rest_closes (hrest.trans hslash)
  | none =>
    obtain hhost := List.getLast?_eq_some_getLast e.host_ne_nil
    rw [List.getLast?_append, hrest, Option.none_or, List.getLast?_append, hhost, Option.some_or]
      at hslash
    have hclean := (e.host_clean _ (List.getLast_mem e.host_ne_nil)).2
    rw [Option.some.inj hslash] at hclean
    exact absurd hclean (by decide)

/-- What a client asks for at an endpoint with a host. -/
theorem address_eq {endpoint : String} (h : endpoint.toList = e.chars) (invocation leaf : String) :
    (WebClient.new endpoint).address invocation leaf = e.address invocation leaf := by
  have hkept : (WebClient.new endpoint).endpoint =
      e.scheme ++ String.ofList e.host ++ String.ofList e.rest := by
    calc (WebClient.new endpoint).endpoint
        = String.ofList (endpoint.toList.rdropWhile (· = '/')) := rfl
      _ = String.ofList (e.scheme.toList ++ e.host ++ e.rest) := by
          rw [h, chars, rdropWhile_slashes e.getLast?_ne_slash]
      _ = e.scheme ++ String.ofList e.host ++ String.ofList e.rest := by
          simp [← String.toList_inj]
  rw [WebClient.address, address, hkept]

/-- The host ends where it is said to. -/
theorem hostPart_eq (e : HostedEndpoint) :
    hostPart (e.host ++ e.rest ++ List.replicate e.slashes '/') = e.host := by
  have hhead : ∀ c ∈ (e.rest ++ List.replicate e.slashes '/').head?, endsHost c = true := by
    intro c hc
    rw [List.head?_append] at hc
    cases hrest : e.rest.head? with
    | some d => exact e.rest_opens c (by simpa [hrest] using hc)
    | none =>
      rw [hrest, Option.none_or] at hc
      rw [List.eq_of_mem_replicate (List.mem_of_mem_head? hc)]
      decide
  rw [hostPart, List.append_assoc,
    List.takeWhile_append_of_pos fun c hc => by simp [(e.host_clean c hc).2]]
  cases hmore : e.rest ++ List.replicate e.slashes '/' with
  | nil => simp
  | cons c more =>
    rw [hmore] at hhead
    rw [List.takeWhile_cons_of_neg (by simp [hhead c rfl]), List.append_nil]

/-- There are no blanks in front of an endpoint with a host, and its host stands behind its scheme. -/
theorem eq_of_chars_eq {front more : List Char} {scheme : String}
    (hfront : ∀ c ∈ front, isBlankChar c = true) (hscheme : scheme ∈ webSchemes)
    (h : e.chars = front ++ scheme.toList ++ more) : front = [] ∧ hostPart more = e.host := by
  have hschemes : e.scheme = "http://" ∨ e.scheme = "https://" := by
    simpa [webSchemes] using e.scheme_mem
  simp only [webSchemes, List.mem_cons, List.not_mem_nil, or_false] at hscheme
  have hnil : front = [] := by
    cases front with
    | nil => rfl
    | cons c front =>
      have hc : 'h' = c := by
        rcases hschemes with hs | hs <;>
          · rw [chars, hs] at h
            exact (List.cons.inj h).1
      have hblank := hfront c List.mem_cons_self
      rw [← hc] at hblank
      exact absurd hblank (by decide)
  subst hnil
  refine ⟨rfl, ?_⟩
  rw [← e.hostPart_eq]
  rcases hschemes with hs | hs <;> rcases hscheme with rfl | rfl
  · simp only [chars, hs, List.nil_append, List.append_assoc, List.append_cancel_left_eq] at h
    rw [← h, List.append_assoc]
  · simp [chars, hs] at h
  · simp [chars, hs] at h
  · simp only [chars, hs, List.nil_append, List.append_assoc, List.append_cancel_left_eq] at h
    rw [← h, List.append_assoc]

/-- A scheme with a clean host behind it begins an endpoint with a host. -/
theorem exists_of_hostPart {scheme : String} {more : List Char} (hscheme : scheme ∈ webSchemes)
    (hne : hostPart more ≠ []) (hclean : ∀ c ∈ hostPart more, isBlankChar c = false) :
    ∃ e : HostedEndpoint, e.chars = scheme.toList ++ more := by
  obtain ⟨kept, n, hkept, hcloses⟩ := exists_slashes (more.dropWhile (!endsHost ·))
  have hopens : ∀ c ∈ kept.head?, endsHost c = true := by
    intro c hc
    have hhead := List.head?_dropWhile_not (!endsHost ·) more
    rw [hkept, List.head?_append, Option.mem_def.mp hc, Option.some_or] at hhead
    simpa using hhead
  refine ⟨⟨scheme, hostPart more, kept, n, hscheme, hne,
    fun c hc => ⟨hclean c hc, ?_⟩, hopens, hcloses⟩, ?_⟩
  · simpa using List.mem_takeWhile_imp hc
  · calc scheme.toList ++ hostPart more ++ kept ++ List.replicate n '/'
        = scheme.toList ++ (hostPart more ++ more.dropWhile (!endsHost ·)) := by
          rw [hkept, List.append_assoc, List.append_assoc]
      _ = scheme.toList ++ more := by rw [hostPart, List.takeWhile_append_dropWhile]

end HostedEndpoint

/-! ## Options that may be used -/

theorem UploadOptions.isWebAddress_of_check {o : UploadOptions} {b : BackendOptions}
    (hcheck : o.check = .ok ()) (hb : o.backend = some b) : isWebAddress b.endpoint = true := by
  by_contra hnot
  have hproblems : o.problems ≠ [] := by simp [problems, hb, backendProblems, hnot]
  rw [check, if_neg (by simpa using hproblems)] at hcheck
  cases hcheck

/-- **The addresses at a backend whose options may be used.** The endpoint has a scheme behind some
blanks, and something behind the scheme that is not blank. What a client asks for is the scheme, the host,
the rest of the endpoint without slashes at its end and the place of the invocation, whatever the
invocation, exactly if there are no blanks in front and if what stands behind the scheme is a host, and one
without blanks. -/
theorem BackendOptions.addressed_iff {o : UploadOptions} {b : BackendOptions}
    (hcheck : o.check = .ok ()) (hb : o.backend = some b) :
    ∃ front scheme more, (∀ c ∈ front, isBlankChar c = true) ∧ scheme ∈ webSchemes ∧
      (∃ c ∈ more, isBlankChar c = false) ∧
      b.endpoint.toList = front ++ scheme.toList ++ more ∧
      ((∃ e : HostedEndpoint, b.endpoint.toList = e.chars ∧ ∀ invocation leaf,
          (WebClient.new b.endpoint).address invocation leaf = e.address invocation leaf) ↔
        front = [] ∧ hostPart more ≠ [] ∧ ∀ c ∈ hostPart more, isBlankChar c = false) := by
  obtain ⟨front, scheme, more, hfront, hscheme, hmore, heq⟩ :=
    exists_scheme (UploadOptions.isWebAddress_of_check hcheck hb)
  refine ⟨front, scheme, more, hfront, hscheme, hmore, heq, ?_, ?_⟩
  · rintro ⟨e, he, -⟩
    obtain ⟨hnil, hhost⟩ := HostedEndpoint.eq_of_chars_eq hfront hscheme (he.symm.trans heq)
    rw [hhost]
    exact ⟨hnil, e.host_ne_nil, fun c hc => (e.host_clean c hc).1⟩
  · rintro ⟨rfl, hne, hclean⟩
    obtain ⟨e, he⟩ := HostedEndpoint.exists_of_hostPart hscheme hne hclean
    have hchars : b.endpoint.toList = e.chars := heq.trans he.symm
    exact ⟨e, hchars, HostedEndpoint.address_eq hchars⟩

/-- Options with a backend at an endpoint. -/
def backendAt (endpoint : String) : UploadOptions :=
  { UploadOptions.standard with backend := some (.at endpoint) }

/-- An endpoint with a port, a path and a slash too many. -/
theorem addressed_iff_slashAtEnd :
    (backendAt "https://localhost:8080/events//").check = .ok () ∧
    ∃ front scheme more, (∀ c ∈ front, isBlankChar c = true) ∧ scheme ∈ webSchemes ∧
      (∃ c ∈ more, isBlankChar c = false) ∧
      "https://localhost:8080/events//".toList = front ++ scheme.toList ++ more ∧
      ((∃ e : HostedEndpoint, "https://localhost:8080/events//".toList = e.chars ∧
          ∀ invocation leaf,
            (WebClient.new "https://localhost:8080/events//").address invocation leaf =
              e.address invocation leaf) ↔
        front = [] ∧ hostPart more ≠ [] ∧ ∀ c ∈ hostPart more, isBlankChar c = false) := by
  have hcheck : (backendAt "https://localhost:8080/events//").check = .ok () := by decide
  exact ⟨hcheck, BackendOptions.addressed_iff hcheck rfl⟩

/-- A blank in front of an endpoint keeps nobody from using it, and then stands in front of every address
at it. -/
theorem not_addressed_blankInFront :
    ¬ ∀ (o : UploadOptions) (b : BackendOptions), o.check = .ok () → o.backend = some b →
      ∀ invocation leaf, ∃ e : HostedEndpoint, b.endpoint.toList = e.chars ∧
        (WebClient.new b.endpoint).address invocation leaf = e.address invocation leaf := by
  intro hclaim
  have hcheck : (backendAt "\u00a0http://localhost").check = .ok () := by decide
  obtain ⟨e, he, -⟩ := hclaim _ _ hcheck rfl "inv-1" "ack"
  have hparts : e.chars = ['\u00a0'] ++ "http://".toList ++ "localhost".toList := he.symm
  have hblank : isBlankChar '\u00a0' = true := by decide
  have hnil := (HostedEndpoint.eq_of_chars_eq (by simp [hblank]) (by decide) hparts).1
  exact absurd hnil (by simp)

end EventUpload
