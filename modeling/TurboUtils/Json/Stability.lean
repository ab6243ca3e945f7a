import TurboUtils.Json.Scanner

/-! What the scanners find in the bytes that are there stays when more bytes follow. -/
namespace Json

/-! ## What a scanner takes -/

theorem digits_suffix (input : List Char) : digits input <:+ input := List.dropWhile_suffix _

section Suffix

variable {final : Bool} {input rest : List Char}

theorem someDigits_suffix (h : someDigits final input = .ok rest) : rest <:+ input.tail := by
  cases input with
  | nil => cases final <;> cases h
  | cons c tail =>
    rw [someDigits] at h
    split_ifs at h
    cases h
    exact digits_suffix tail

theorem unsigned_suffix (l : List Char) (hl : (match l with
    | [] => atEnd final "Invalid number"
    | c :: rest =>
        if c = '0' then if rest.head?.any isDigit then .error "Invalid number" else .ok rest
        else if '1' ≤ c && c ≤ '9' then .ok (digits rest)
        else .error "Invalid number") = Scan.ok rest) : rest <:+ l.tail := by
  cases l with
  | nil => cases final <;> cases hl
  | cons c tail =>
    dsimp only at hl
    split_ifs at hl
    · cases hl
      exact List.suffix_rfl
    · cases hl
      exact digits_suffix tail

theorem integerPart_suffix (h : integerPart final input = .ok rest) : rest <:+ input.tail := by
  have hrest := unsigned_suffix _ h
  split_ifs at hrest
  · exact hrest.trans (List.tail_suffix _)
  · exact hrest

theorem fractionPart_suffix (h : fractionPart final input = .ok rest) : rest <:+ input := by
  unfold fractionPart at h
  split_ifs at h
  · exact (someDigits_suffix h).trans ((List.tail_suffix _).trans (List.tail_suffix _))
  · cases h
    exact List.suffix_rfl

theorem exponentPart_suffix (h : exponentPart final input = .ok rest) : rest <:+ input := by
  unfold exponentPart at h
  dsimp only at h
  split_ifs at h
  · exact (someDigits_suffix h).trans ((List.tail_suffix _).trans
      ((List.tail_suffix _).trans (List.tail_suffix _)))
  · exact (someDigits_suffix h).trans ((List.tail_suffix _).trans (List.tail_suffix _))
  · cases h
    exact List.suffix_rfl

theorem numberEnd_suffix (h : numberEnd final input = .ok rest) : rest <:+ input.tail := by
  obtain ⟨r₁, h₁, h⟩ := Scan.bind_eq_ok.1 h
  obtain ⟨r₂, h₂, h⟩ := Scan.bind_eq_ok.1 h
  exact (exponentPart_suffix h).trans ((fractionPart_suffix h₂).trans (integerPart_suffix h₁))

theorem scanNumber_some {reads : List Char → Bool} {token : Token}
    (h : scanNumber final reads input = .ok (token, rest)) :
    numberEnd final input = .ok rest ∧ (rest = [] → final = true) ∧
      (∀ c ∈ rest.head?, isDelim c = true) ∧
      token = .number (input.take (input.length - rest.length)) ∧
      reads (input.take (input.length - rest.length)) = true := by
  obtain ⟨r, hr, h⟩ := Scan.bind_eq_ok.1 h
  dsimp only at h
  split_ifs at h with hwait hdelim hreads
  cases h
  refine ⟨hr, fun hnil => ?_, fun c hc => ?_, rfl, hreads⟩
  · by_contra hfinal
    exact hwait ⟨hnil, by simpa using hfinal⟩
  · by_contra hnot
    exact hdelim (by simp [Option.mem_def.1 hc, hnot])

theorem prepend_eq_ok {bytes : List Char} {escape : Bool} {s : Scan ((List Char × Bool) × List Char)}
    {r : (List Char × Bool) × List Char} (h : prepend bytes escape s = .ok r) :
    ∃ value hasEscape, s = .ok ((value, hasEscape), r.2) ∧
      r.1 = (bytes ++ value, escape || hasEscape) := by
  obtain ⟨⟨⟨value, hasEscape⟩, rest⟩, hs, rfl⟩ := Scan.map_eq_ok.1 h
  exact ⟨value, hasEscape, hs, rfl⟩

theorem scanChars_suffix {r : (List Char × Bool) × List Char}
    (h : scanChars final input = .ok r) : r.2 <:+ input := by
  fun_induction scanChars final input generalizing r with
  | case1 => cases final <;> cases h
  | case2 =>
    cases h
    exact List.suffix_cons _ _
  | case3 => cases final <;> cases h
  | case4 e tail he hquote ih =>
    obtain ⟨value, hasEscape, hs, -⟩ := prepend_eq_ok h
    exact (ih hs).trans ((List.suffix_cons _ _).trans (List.suffix_cons _ _))
  | case5 h₁ h₂ h₃ h₄ tail hhex hquote hu ih =>
    obtain ⟨value, hasEscape, hs, -⟩ := prepend_eq_ok h
    exact (ih hs).trans (List.suffix_append ['\\', 'u', h₁, h₂, h₃, h₄] tail)
  | case6 => cases h
  | case7 => cases final <;> cases h
  | case8 => cases h
  | case9 => cases h
  | case10 c tail hquote hslash hcontrol ih =>
    obtain ⟨value, hasEscape, hs, -⟩ := prepend_eq_ok h
    exact (ih hs).trans (List.suffix_cons _ _)

theorem scanLiteral_some {literal : List Char} {token token' : Token}
    (h : scanLiteral final literal token input = .ok (token', rest)) :
    token' = token ∧ input = literal ++ rest ∧ ∀ c ∈ rest.head?, isDelim c = true := by
  unfold scanLiteral at h
  dsimp only at h
  split_ifs at h with hsame hshort hdelim
  · cases final <;> cases h
  · cases h
    refine ⟨rfl, ?_, fun c hc => ?_⟩
    · have hlen : min input.length literal.length = literal.length := by omega
      rw [not_ne_iff, hlen, List.take_length] at hsame
      conv_lhs => rw [← List.take_append_drop literal.length input, hsame]
    · by_contra hnot
      exact hdelim (by simp [Option.mem_def.1 hc, hnot])

theorem literal_ne_nil {c : Char} {bytes : List Char} {token : Token}
    (h : literal c = some (bytes, token)) : bytes ≠ [] := by
  unfold literal at h
  split_ifs at h <;> cases h <;> decide

/-- A token is made of bytes. -/
theorem scanToken_suffix {reads : List Char → Bool} {token : Token}
    (h : scanToken final reads input = .ok (token, rest)) :
    rest <:+ input.tail ∧ input ≠ [] := by
  cases input with
  | nil => cases h
  | cons c tail =>
    refine ⟨?_, List.cons_ne_nil _ _⟩
    rw [scanToken] at h
    split at h
    · cases h
      exact List.suffix_rfl
    · by_cases hquote : c = '"'
      · rw [if_pos hquote] at h
        obtain ⟨r, hr, h⟩ := Scan.map_eq_ok.1 h
        cases h
        exact scanChars_suffix hr
      · rw [if_neg hquote] at h
        split at h
        · rename_i bytes t hliteral
          obtain ⟨-, happ, -⟩ := scanLiteral_some h
          obtain ⟨l, bytes, rfl⟩ := List.exists_cons_of_ne_nil (literal_ne_nil hliteral)
          obtain ⟨-, rfl⟩ := List.cons.inj happ
          exact List.suffix_append _ _
        · split_ifs at h
          exact numberEnd_suffix (scanNumber_some h).1

end Suffix

/-! ## More bytes -/

section Append

variable {α : Type} (more : List Char)

/-- What a scanner has found is found again with more bytes behind it. -/
def Extends : Scan (α × List Char) → Scan (α × List Char) → Prop
  | .wait, _ => True
  | .error _, t => ∃ message, t = .error message
  | .ok (a, rest), t => t = .ok (a, rest ++ more)

variable {more} (final : Bool)

theorem extends_error {message : String} {message' : String} :
    Extends (α := α) more (.error message) (.error message') :=
  ⟨message', rfl⟩

theorem Extends.map {β : Type} {s t : Scan (α × List Char)} (h : Extends more s t)
    {f : α × List Char → β × List Char} {g : α → β} (hf : ∀ a rest, f (a, rest) = (g a, rest)) :
    Extends more (s.map f) (t.map f) := by
  match s with
  | .wait => trivial
  | .error _ =>
    obtain ⟨message, rfl⟩ := h
    exact ⟨message, rfl⟩
  | .ok (a, rest) =>
    obtain rfl := h
    change Extends more (.ok (f (a, rest))) (.ok (f (a, rest ++ more)))
    rw [hf, hf]
    rfl

theorem Extends.prepend {s t : Scan ((List Char × Bool) × List Char)} (h : Extends more s t)
    (bytes : List Char) (escape : Bool) :
    Extends more (prepend bytes escape s) (Json.prepend bytes escape t) :=
  h.map (g := fun a => (bytes ++ a.1, escape || a.2)) fun _ _ => rfl

variable (more)

/-- A string that has ended, and one that cannot end, stay as they are. -/
theorem scanChars_append (input : List Char) :
    Extends more (scanChars false input) (scanChars final (input ++ more)) := by
  fun_induction scanChars false input with
  | case1 => trivial
  | case2 tail =>
    rw [List.cons_append, scanChars.eq_def final]
    exact if_pos rfl
  | case3 => trivial
  | case4 e tail he hquote ih =>
    rw [List.cons_append, List.cons_append, scanChars.eq_def final]
    simp only [if_neg hquote, if_true, if_pos he]
    exact ih.prepend _ _
  | case5 h₁ h₂ h₃ h₄ tail hhex hquote hu ih =>
    simp only [List.cons_append]
    rw [scanChars.eq_def final]
    simp only [if_neg hquote, if_true, if_neg hu, if_pos hhex]
    exact ih.prepend _ _
  | case6 h₁ h₂ h₃ h₄ tail hhex hquote hu =>
    simp only [List.cons_append]
    rw [scanChars.eq_def final]
    simp only [if_neg hquote, if_true, if_neg hu, if_neg hhex]
    exact extends_error
  | case7 => trivial
  | case8 e tail he hu hquote =>
    simp only [List.cons_append]
    rw [scanChars.eq_def final]
    simp only [if_neg hquote, if_true, if_neg he, if_neg hu]
    exact extends_error
  | case9 c tail hquote hslash hcontrol =>
    rw [List.cons_append, scanChars.eq_def final]
    simp only [if_neg hquote, if_neg hslash, if_pos hcontrol]
    exact extends_error
  | case10 c tail hquote hslash hcontrol ih =>
    rw [List.cons_append, scanChars.eq_def final]
    simp only [if_neg hquote, if_neg hslash, if_neg hcontrol]
    exact ih.prepend _ _

/-- What is found of a number, where something follows it. -/
def Grows : Scan (List Char) → Scan (List Char) → Prop
  | .wait, _ => True
  | .error _, t => ∃ message, t = .error message
  | .ok rest, t => rest ≠ [] → t = .ok (rest ++ more)

variable {more final} in
theorem Grows.bind {s t : Scan (List Char)} {g g' : List Char → Scan (List Char)}
    (h : Grows more s t) (hg : ∀ rest, Grows more (g rest) (g' (rest ++ more)))
    (hnil : g [] = .ok []) : Grows more (s.bind g) (t.bind g') := by
  match s with
  | .wait => trivial
  | .error _ =>
    obtain ⟨message, rfl⟩ := h
    exact ⟨message, rfl⟩
  | .ok [] =>
    have hend : (Scan.ok []).bind g = .ok [] := hnil
    rw [hend]
    exact fun hne => absurd rfl hne
  | .ok (c :: rest) =>
    rw [h (List.cons_ne_nil c rest)]
    exact hg (c :: rest)

theorem digits_append {input : List Char} (h : digits input ≠ []) :
    digits (input ++ more) = digits input ++ more := by
  unfold digits at h ⊢
  rw [List.dropWhile_append, if_neg (by simpa using h)]

theorem someDigits_append (input : List Char) :
    Grows more (someDigits false input) (someDigits final (input ++ more)) := by
  cases input with
  | nil => trivial
  | cons c rest =>
    rw [List.cons_append, someDigits, someDigits]
    split_ifs
    · exact fun h => congrArg Scan.ok (digits_append more h)
    · exact ⟨_, rfl⟩

theorem unsigned_append (l : List Char) : Grows more
    (match l with
      | [] => atEnd false "Invalid number"
      | c :: rest =>
          if c = '0' then if rest.head?.any isDigit then .error "Invalid number" else .ok rest
          else if '1' ≤ c && c ≤ '9' then .ok (digits rest)
          else .error "Invalid number")
    (match l ++ more with
      | [] => atEnd final "Invalid number"
      | c :: rest =>
          if c = '0' then if rest.head?.any isDigit then .error "Invalid number" else .ok rest
          else if '1' ≤ c && c ≤ '9' then .ok (digits rest)
          else .error "Invalid number") := by
  cases l with
  | nil => trivial
  | cons c rest =>
    dsimp only [List.cons_append]
    by_cases hzero : c = '0'
    · rw [if_pos hzero, if_pos hzero]
      cases rest with
      | nil => exact fun hne => absurd rfl hne
      | cons d rest =>
        rw [List.cons_append, List.head?_cons, List.head?_cons]
        split_ifs
        · exact ⟨_, rfl⟩
        · exact fun _ => rfl
    · rw [if_neg hzero, if_neg hzero]
      split_ifs
      · exact fun h => congrArg Scan.ok (digits_append more h)
      · exact ⟨_, rfl⟩

theorem integerPart_append (input : List Char) :
    Grows more (integerPart false input) (integerPart final (input ++ more)) := by
  cases input with
  | nil => trivial
  | cons c rest =>
    unfold integerPart
    rw [List.cons_append, List.head?_cons, List.head?_cons]
    split_ifs
    · exact unsigned_append more final rest
    · exact unsigned_append more final (c :: rest)

theorem fractionPart_append (input : List Char) :
    Grows more (fractionPart false input) (fractionPart final (input ++ more)) := by
  cases input with
  | nil => exact fun hne => absurd rfl hne
  | cons c rest =>
    unfold fractionPart
    rw [List.cons_append, List.head?_cons, List.head?_cons]
    split_ifs
    · exact someDigits_append more final rest
    · exact fun _ => rfl

theorem exponentPart_append (input : List Char) :
    Grows more (exponentPart false input) (exponentPart final (input ++ more)) := by
  cases input with
  | nil => exact fun hne => absurd rfl hne
  | cons c rest =>
    unfold exponentPart
    rw [List.cons_append, List.head?_cons, List.head?_cons]
    dsimp only [List.tail_cons]
    by_cases he : some c = some 'e' ∨ some c = some 'E'
    · rw [if_pos he, if_pos he]
      cases rest with
      | nil => trivial
      | cons d rest =>
        rw [List.cons_append, List.head?_cons, List.head?_cons]
        split_ifs
        · exact someDigits_append more final rest
        · exact someDigits_append more final (d :: rest)
    · rw [if_neg he, if_neg he]
      exact fun _ => rfl

theorem numberEnd_append (input : List Char) :
    Grows more (numberEnd false input) (numberEnd final (input ++ more)) :=
  (integerPart_append more final input).bind (fun rest =>
    (fractionPart_append more final rest).bind (exponentPart_append more final) rfl) rfl

theorem scanNumber_append (reads : List Char → Bool) (input : List Char) :
    Extends more (scanNumber false reads input) (scanNumber final reads (input ++ more)) := by
  have hgrows := numberEnd_append more final input
  unfold scanNumber
  cases hend : numberEnd false input with
  | wait => trivial
  | error message =>
    rw [hend] at hgrows
    obtain ⟨message', hmore⟩ := hgrows
    rw [hmore]
    exact ⟨message', rfl⟩
  | ok rest =>
    rw [hend] at hgrows
    cases rest with
    | nil => trivial
    | cons c rest =>
      rw [hgrows (List.cons_ne_nil _ _)]
      dsimp only [Scan.bind]
      have hlen : (c :: rest).length ≤ input.length :=
        (numberEnd_suffix hend).length_le.trans (by simp)
      have htake : (input ++ more).take ((input ++ more).length - (c :: rest ++ more).length) =
          input.take (input.length - (c :: rest).length) := by
        rw [List.length_append, List.length_append, Nat.add_sub_add_right,
          List.take_append_of_le_length (by omega)]
      have hwait (l : List Char) (b : Bool) : ¬(c :: l = [] ∧ b = true) :=
        fun h => List.cons_ne_nil _ _ h.1
      rw [htake, List.cons_append, if_neg (hwait _ _), if_neg (hwait _ _), List.head?_cons,
        List.head?_cons]
      split_ifs
      · exact ⟨_, rfl⟩
      · rfl
      · exact ⟨_, rfl⟩

theorem scanLiteral_there (bytes : List Char) (token : Token) (tail : List Char) :
    scanLiteral final bytes token (bytes ++ tail) =
      if tail.head?.any fun c => !isDelim c then .error "Invalid literal terminator"
      else .ok (token, tail) := by
  have hlen : min (bytes ++ tail).length bytes.length = bytes.length := by simp
  unfold scanLiteral
  dsimp only
  rw [hlen, List.take_left, List.take_length, if_neg (not_not_intro rfl), if_neg (by simp),
    List.drop_left]

/-- A literal that is there is followed by a byte, or the bytes end with it. -/
theorem scanLiteral_append (bytes : List Char) (token : Token) (input : List Char) :
    Extends more (scanLiteral false bytes token input)
        (scanLiteral final bytes token (input ++ more)) ∨
      input = bytes ∧ ∃ c ∈ more.head?, isDelim c = false := by
  by_cases hsame : input.take (min input.length bytes.length) =
      bytes.take (min input.length bytes.length)
  · by_cases hshort : input.length < bytes.length
    · left
      unfold scanLiteral
      dsimp only
      rw [if_neg (not_not_intro hsame), if_pos hshort]
      trivial
    · rw [Nat.min_eq_right (by omega), List.take_length] at hsame
      obtain ⟨tail, rfl⟩ : ∃ tail, input = bytes ++ tail :=
        ⟨input.drop bytes.length, by conv_lhs => rw [← List.take_append_drop bytes.length input, hsame]⟩
      rw [List.append_assoc, scanLiteral_there, scanLiteral_there]
      cases tail with
      | nil =>
        cases hmore : more.head? with
        | none =>
          left
          rw [List.nil_append, hmore]
          rfl
        | some c =>
          rw [List.nil_append, hmore]
          cases hdelim : isDelim c with
          | true => exact Or.inl (by simp [hdelim, Extends])
          | false => exact Or.inr ⟨List.append_nil _, c, rfl, hdelim⟩
      | cons c tail =>
        left
        rw [List.cons_append, List.head?_cons, List.head?_cons]
        split_ifs
        · exact ⟨_, rfl⟩
        · rfl
  · left
    have hmore : ¬(input ++ more).take (min (input ++ more).length bytes.length) =
        bytes.take (min (input ++ more).length bytes.length) := by
      intro hmore
      apply hsame
      have hle : min input.length bytes.length ≤ min (input ++ more).length bytes.length := by
        rw [List.length_append]
        omega
      have htake := congrArg (List.take (min input.length bytes.length)) hmore
      rwa [List.take_take, List.take_take, Nat.min_eq_left hle,
        List.take_append_of_le_length (Nat.min_le_left _ _)] at htake
    unfold scanLiteral
    dsimp only
    rw [if_pos hsame, if_pos hmore]
    exact ⟨_, rfl⟩

/-- A token that is found is found again with more bytes behind it, unless it is a literal at the end
of the bytes and the next byte may not follow it. -/
theorem scanToken_append (reads : List Char → Bool) (input : List Char) :
    Extends more (scanToken false reads input) (scanToken final reads (input ++ more)) ∨
      ∃ c token, literal c = some (input, token) ∧
        scanToken false reads input = .ok (token, []) ∧
          (∃ message, scanToken final reads (input ++ more) = .error message) ∧
            ∃ d ∈ more.head?, isDelim d = false := by
  cases input with
  | nil => exact Or.inl trivial
  | cons c rest =>
    rw [List.cons_append, scanToken, scanToken]
    cases structural c with
    | some token => exact Or.inl rfl
    | none =>
      dsimp only
      by_cases hquote : c = '"'
      · rw [if_pos hquote, if_pos hquote]
        exact Or.inl ((scanChars_append more final rest).map (g := fun a => .string a.1 a.2)
          fun _ _ => rfl)
      · rw [if_neg hquote, if_neg hquote]
        cases hliteral : literal c with
        | some found =>
          obtain ⟨bytes, token⟩ := found
          rcases scanLiteral_append more final bytes token (c :: rest) with h | ⟨hsame, d, hd, hdelim⟩
          · exact Or.inl h
          · right
            subst hsame
            have hthere := scanLiteral_there false (c :: rest) token []
            have hmore := scanLiteral_there final (c :: rest) token more
            rw [List.append_nil] at hthere
            rw [if_pos (by simp [Option.mem_def.1 hd, hdelim])] at hmore
            exact ⟨c, token, hliteral, hthere, ⟨_, hmore⟩, d, hd, hdelim⟩
        | none =>
          left
          dsimp only
          split_ifs
          · exact scanNumber_append more final reads (c :: rest)
          · exact ⟨_, rfl⟩

end Append

end Json
