import Mathlib.Data.List.DropRight
import TurboUtils.Json.Sax
import TurboUtils.Json.Stability

/-! The SAX parser gets the same calls however its bytes are cut. -/
namespace Json

/-! ## A scanner at the last byte -/

section Final

variable {reads : List Char → Bool} {input : List Char}

theorem someDigits_final (input : List Char) : someDigits true input ≠ .wait := by
  cases input with
  | nil => rintro ⟨⟩
  | cons c rest =>
    rw [someDigits]
    split_ifs <;> rintro ⟨⟩

theorem integerPart_final (input : List Char) : integerPart true input ≠ .wait := by
  unfold integerPart
  split
  · rintro ⟨⟩
  · split_ifs <;> rintro ⟨⟩

theorem numberEnd_final (input : List Char) : numberEnd true input ≠ .wait := by
  unfold numberEnd
  cases hint : integerPart true input with
  | wait => exact absurd hint (integerPart_final input)
  | error message => nofun
  | ok rest =>
    dsimp only [Scan.bind]
    cases hfraction : fractionPart true rest with
    | wait =>
      unfold fractionPart at hfraction
      split_ifs at hfraction
      exact absurd hfraction (someDigits_final _)
    | error message => nofun
    | ok rest =>
      dsimp only
      unfold exponentPart
      dsimp only
      split_ifs
      · exact someDigits_final _
      · exact someDigits_final _
      · nofun

theorem prepend_final {bytes : List Char} {escape : Bool}
    {s : Scan ((List Char × Bool) × List Char)} (h : s ≠ .wait) : prepend bytes escape s ≠ .wait := by
  cases s with
  | wait => exact absurd rfl h
  | error message => nofun
  | ok a => nofun

theorem scanChars_final (input : List Char) : scanChars true input ≠ .wait := by
  fun_induction scanChars true input with
  | case1 => rintro ⟨⟩
  | case2 => rintro ⟨⟩
  | case3 => rintro ⟨⟩
  | case4 e tail he hquote ih => exact prepend_final ih
  | case5 h₁ h₂ h₃ h₄ tail hhex hquote hu ih => exact prepend_final ih
  | case6 => rintro ⟨⟩
  | case7 => rintro ⟨⟩
  | case8 => rintro ⟨⟩
  | case9 => rintro ⟨⟩
  | case10 c tail hquote hslash hcontrol ih => exact prepend_final ih

/-- No more bytes are waited for. -/
theorem scanToken_final {c : Char} {rest : List Char} : scanToken true reads (c :: rest) ≠ .wait := by
  rw [scanToken]
  split
  · rintro ⟨⟩
  · by_cases hquote : c = '"'
    · rw [if_pos hquote, scanString]
      cases hchars : scanChars true rest with
      | wait => exact absurd hchars (scanChars_final rest)
      | error message => rintro ⟨⟩
      | ok r => rintro ⟨⟩
    · rw [if_neg hquote]
      split
      · unfold scanLiteral
        dsimp only
        split_ifs <;> rintro ⟨⟩
      · split_ifs
        · unfold scanNumber
          cases hend : numberEnd true (c :: rest) with
          | wait => exact absurd hend (numberEnd_final _)
          | error message => rintro ⟨⟩
          | ok rest =>
            dsimp only [Scan.bind]
            rw [if_neg (by simp)]
            split_ifs <;> rintro ⟨⟩
        · rintro ⟨⟩

end Final

/-! ## The run without a buffer -/

section Drive

theorem scanToken_dropWhile {reads : List Char → Bool} {final : Bool} {input rest : List Char}
    {token : Token} (h : scanToken final reads (input.dropWhile isWs) = .ok (token, rest)) :
    rest <:+ input ∧ rest.length < input.length := by
  obtain ⟨hrest, hne⟩ := scanToken_suffix h
  have hws := List.dropWhile_suffix isWs (l := input)
  have hlt := hrest.length_le
  have hle := hws.length_le
  have hpos := List.length_pos_iff.2 hne
  rw [List.length_tail] at hlt
  exact ⟨hrest.trans ((List.tail_suffix _).trans hws), by omega⟩

variable (reads : List Char → Bool) (final : Bool)

/-- The tokens of some bytes one after the other: the machine, and what waits for more bytes. -/
def drive (m : Machine) (input : List Char) : Except String (Machine × List Char) :=
  match _h : scanToken final reads (input.dropWhile isWs) with
  | .wait => .ok (m, input.dropWhile isWs)
  | .error message => .error message
  | .ok (token, rest) => (m.processToken token).bind fun m => drive m rest
  termination_by input.length
  decreasing_by exact (scanToken_dropWhile _h).2

variable {reads final} {m : Machine} {input rest : List Char}

theorem drive_wait (h : scanToken final reads (input.dropWhile isWs) = .wait) :
    drive reads final m input = .ok (m, input.dropWhile isWs) := by
  rw [drive]
  split <;> simp_all

theorem drive_error {message : String}
    (h : scanToken final reads (input.dropWhile isWs) = .error message) :
    drive reads final m input = .error message := by
  rw [drive]
  split <;> simp_all

theorem drive_ok {token : Token}
    (h : scanToken final reads (input.dropWhile isWs) = .ok (token, rest)) :
    drive reads final m input = (m.processToken token).bind fun m => drive reads final m rest := by
  rw [drive]
  split <;> simp_all

theorem drive_dropWhile (m : Machine) (input more : List Char) :
    drive reads final m (input ++ more) = drive reads final m (input.dropWhile isWs ++ more) := by
  have hsame : (input ++ more).dropWhile isWs = (input.dropWhile isWs ++ more).dropWhile isWs := by
    rw [List.dropWhile_append, List.dropWhile_append, List.dropWhile_idempotent]
  cases h : scanToken final reads ((input ++ more).dropWhile isWs) with
  | wait => rw [drive_wait h, drive_wait (hsame ▸ h), hsame]
  | error message => rw [drive_error h, drive_error (hsame ▸ h)]
  | ok r => rw [drive_ok h, drive_ok (hsame ▸ h)]

theorem drive_suffix {m' : Machine} (h : drive reads final m input = .ok (m', rest)) :
    rest <:+ input := by
  induction hlen : input.length using Nat.strong_induction_on generalizing m input with
  | _ n ih =>
    subst hlen
    cases hscan : scanToken final reads (input.dropWhile isWs) with
    | wait =>
      rw [drive_wait hscan] at h
      cases h
      exact List.dropWhile_suffix _
    | error message =>
      rw [drive_error hscan] at h
      cases h
    | ok r =>
      obtain ⟨token, tail⟩ := r
      obtain ⟨hle, hlt⟩ := scanToken_dropWhile hscan
      rw [drive_ok hscan] at h
      cases hprocess : m.processToken token with
      | error message =>
        rw [hprocess] at h
        cases h
      | ok m₁ =>
        rw [hprocess] at h
        exact (ih tail.length hlt h rfl).trans hle

end Drive

def driven (reads : List Char → Bool) (m : Machine) (input : List Char) : Option (List Event) :=
  match drive reads true m input with
  | .ok (m, _) => if m.done then some m.events else none
  | .error _ => none

section Driven

variable {reads : List Char → Bool} {m m' : Machine} {input rest more : List Char}

theorem driven_error {message : String}
    (h : scanToken true reads (input.dropWhile isWs) = .error message) :
    driven reads m input = none := by
  rw [driven, drive_error h]

theorem driven_ok {token : Token}
    (h : scanToken true reads (input.dropWhile isWs) = .ok (token, rest)) :
    driven reads m input = (m.processToken token).toOption.bind fun m => driven reads m rest := by
  rw [driven, drive_ok h]
  cases m.processToken token <;> rfl

/-! ## Literals that the bytes end with -/

theorem Machine.processToken_after {token : Token} (h : m.done = true ∨ m.state = .objectComma ∨
    m.state = .arrayComma) (ht : token ≠ .comma ∧ token ≠ .rbrace ∧ token ≠ .rbracket) :
    ∃ message, m.processToken token = .error message := by
  unfold Machine.processToken
  by_cases hdone : m.done = true
  · rw [if_pos hdone]
    exact ⟨_, rfl⟩
  · rw [if_neg hdone]
    rcases h with h | h | h
    · exact absurd h hdone
    all_goals
      rw [h]
      cases token <;> simp at ht ⊢

theorem structural_nondelim {d : Char} {token : Token} (hd : isDelim d = false)
    (h : structural d = some token) :
    token ≠ .comma ∧ token ≠ .rbrace ∧ token ≠ .rbracket := by
  unfold structural at h
  split_ifs at h with h₁ h₂ h₃ h₄ h₅ h₆ <;> cases h
  · decide
  · exact absurd hd (by rw [h₂]; decide)
  · decide
  · exact absurd hd (by rw [h₄]; decide)
  · decide
  · exact absurd hd (by rw [h₆]; decide)

theorem literal_token {c : Char} {bytes : List Char} {token : Token}
    (h : literal c = some (bytes, token)) : token = .true ∨ token = .false ∨ token = .null := by
  unfold literal at h
  split_ifs at h <;> cases h <;> simp

/-- A byte that may not follow a literal begins none of these tokens. -/
theorem scanToken_nondelim {final : Bool} {d : Char} {tail : List Char} {token : Token}
    (hd : isDelim d = false) (h : scanToken final reads (d :: tail) = .ok (token, rest)) :
    token ≠ .comma ∧ token ≠ .rbrace ∧ token ≠ .rbracket := by
  rw [scanToken] at h
  split at h
  · rename_i t hstructural
    cases h
    exact structural_nondelim hd hstructural
  · by_cases hquote : d = '"'
    · rw [if_pos hquote] at h
      obtain ⟨r, -, h⟩ := Scan.map_eq_ok.1 h
      cases h
      exact ⟨by simp, by simp, by simp⟩
    · rw [if_neg hquote] at h
      split at h
      · rename_i bytes t hliteral
        obtain ⟨rfl, -, -⟩ := scanLiteral_some h
        rcases literal_token hliteral with rfl | rfl | rfl <;> exact ⟨by simp, by simp, by simp⟩
      · by_cases hnumber : (decide (d = '-') || isDigit d) = true
        · rw [if_pos hnumber] at h
          obtain ⟨-, -, -, rfl, -⟩ := scanNumber_some h
          exact ⟨by simp, by simp, by simp⟩
        · rw [if_neg hnumber] at h
          cases h

theorem Machine.markValueComplete_after (m : Machine) : m.markValueComplete.done = true ∨
    m.markValueComplete.state = .objectComma ∨ m.markValueComplete.state = .arrayComma := by
  unfold markValueComplete
  split_ifs
  · exact Or.inr (Or.inl rfl)
  · exact Or.inr (Or.inr rfl)
  · exact Or.inl rfl

theorem Machine.processToken_literal {token : Token}
    (ht : token = .true ∨ token = .false ∨ token = .null) (h : m.processToken token = .ok m') :
    m'.done = true ∨ m'.state = .objectComma ∨ m'.state = .arrayComma := by
  unfold processToken at h
  by_cases hdone : m.done = true
  · rw [if_pos hdone] at h
    cases h
  · rw [if_neg hdone] at h
    cases hstate : m.state <;> rw [hstate] at h <;> rcases ht with rfl | rfl | rfl <;>
      first
      | cases h
        exact markValueComplete_after _
      | cases h

/-- After a literal, bytes that may not follow it are no text. -/
theorem driven_afterLiteral {c d : Char} {bytes : List Char} {token : Token}
    (hliteral : literal c = some (bytes, token)) (h : m.processToken token = .ok m')
    (hd : d ∈ more.head?) (hdelim : isDelim d = false) : driven reads m' more = none := by
  have hafter := Machine.processToken_literal (literal_token hliteral) h
  obtain ⟨tail, rfl⟩ : ∃ tail, more = d :: tail := List.head?_eq_some_iff.1 hd
  have hws : (d :: tail).dropWhile isWs = d :: tail := by
    rw [List.dropWhile_cons_of_neg]
    intro hws
    rw [isDelim, hws] at hdelim
    cases hdelim
  cases hscan : scanToken true reads (d :: tail) with
  | wait => exact absurd hscan scanToken_final
  | error message => exact driven_error (hws.symm ▸ hscan)
  | ok r =>
    obtain ⟨token', rest⟩ := r
    rw [driven_ok (hws.symm ▸ hscan)]
    obtain ⟨message, hprocess⟩ :=
      Machine.processToken_after hafter (scanToken_nondelim hdelim hscan)
    rw [hprocess]
    rfl

/-! ## Cuts -/

/-- What a run has left unread is read with the bytes that follow. -/
theorem driven_append (m : Machine) (input more : List Char) :
    driven reads m (input ++ more) =
      (drive reads false m input).toOption.bind fun (m, rest) => driven reads m (rest ++ more) := by
  induction hlen : input.length using Nat.strong_induction_on generalizing m input with
  | _ n ih =>
    subst hlen
    have hws : driven reads m (input ++ more) = driven reads m (input.dropWhile isWs ++ more) := by
      rw [driven, driven, drive_dropWhile]
    have hkeep : input.dropWhile isWs ≠ [] →
        (input.dropWhile isWs ++ more).dropWhile isWs = input.dropWhile isWs ++ more := by
      intro hne
      rw [List.dropWhile_append, List.dropWhile_idempotent, if_neg (by simpa using hne)]
    cases hscan : scanToken false reads (input.dropWhile isWs) with
    | wait =>
      rw [drive_wait hscan, hws]
      rfl
    | error message =>
      have hne : input.dropWhile isWs ≠ [] := by
        intro hnil
        rw [hnil] at hscan
        cases hscan
      rcases scanToken_append more true reads (input.dropWhile isWs) with h | ⟨c, token, -, hok, -⟩
      · rw [hscan] at h
        obtain ⟨message', hmore⟩ := h
        rw [drive_error hscan, hws, driven_error (by rw [hkeep hne]; exact hmore)]
        rfl
      · rw [hscan] at hok
        cases hok
    | ok r =>
      obtain ⟨token, rest⟩ := r
      obtain ⟨-, hne⟩ := scanToken_suffix hscan
      obtain ⟨-, hshorter⟩ := scanToken_dropWhile hscan
      rw [drive_ok hscan, hws]
      rcases scanToken_append more true reads (input.dropWhile isWs) with
        h | ⟨c, token', hliteral, hok, ⟨message, hmore⟩, d, hd, hdelim⟩
      · rw [hscan] at h
        rw [driven_ok (by rw [hkeep hne]; exact h)]
        cases hprocess : m.processToken token with
        | error message => rfl
        | ok m' => exact ih rest.length hshorter m' rest rfl
      · rw [hscan] at hok
        cases hok
        rw [driven_error (by rw [hkeep hne]; exact hmore)]
        cases hprocess : m.processToken token with
        | error message => rfl
        | ok m' =>
          have hnil : drive reads false m' [] = .ok (m', []) := drive_wait rfl
          change none = ((drive reads false m' []).toOption.bind fun (m, rest) =>
            driven reads m (rest ++ more))
          rw [hnil]
          exact (driven_afterLiteral hliteral hprocess hd hdelim).symm

end Driven

/-! ## The buffer -/

namespace Sax

variable {reads : List Char → Bool} {p : Sax}

theorem compactBuffer_eq (p : Sax) :
    p.compactBuffer = { p with buffer := p.unread, pos := 0 } := by
  unfold compactBuffer unread
  split_ifs with hpos hlen
  · rw [hpos, List.drop_zero, ← hpos]
  · rw [List.drop_eq_nil_of_le hlen]
  · rfl

theorem unread_suffix {rest : List Char} (h : rest <:+ p.unread) :
    p.buffer.drop (p.buffer.length - rest.length) = rest :=
  (List.suffix_iff_eq_drop.1 (h.trans (List.drop_suffix _ _))).symm

/-- The loop of the parser goes through the unread bytes. -/
theorem runLoop_eq {final : Bool} {fuel : ℕ} {p : Sax} (hfuel : p.unread.length < fuel) :
    runLoop reads final fuel p = (drive reads final p.machine p.unread).map fun (m, rest) =>
      { p with machine := m, pos := p.buffer.length - rest.length } := by
  induction fuel generalizing p with
  | zero => exact absurd hfuel (Nat.not_lt_zero _)
  | succ fuel ih =>
    rw [runLoop, nextToken]
    cases hscan : scanToken final reads (p.unread.dropWhile isWs) with
    | wait => rw [drive_wait hscan]; rfl
    | error message => rw [drive_error hscan]; rfl
    | ok r =>
      obtain ⟨token, rest⟩ := r
      obtain ⟨hsuffix, hshorter⟩ := scanToken_dropWhile hscan
      have hunread := unread_suffix hsuffix
      rw [drive_ok hscan]
      dsimp only
      cases hprocess : p.machine.processToken token with
      | error message => rfl
      | ok m =>
        have hnext := @ih { p with machine := m, pos := p.buffer.length - rest.length }
          (by rw [unread, hunread]; omega)
        change runLoop reads final fuel _ = (drive reads final m rest).map _
        rw [hnext, unread, hunread]

theorem run_eq (final : Bool) (p : Sax) :
    p.run reads final = (drive reads final p.machine p.unread).map fun (m, rest) =>
      { p with machine := m, buffer := rest, pos := 0 } := by
  rw [run, runLoop_eq (Nat.lt_succ_self _)]
  cases hdrive : drive reads final p.machine p.unread with
  | error message => rfl
  | ok r =>
    obtain ⟨m, rest⟩ := r
    change Except.ok (compactBuffer _) = _
    rw [compactBuffer_eq, unread, unread_suffix (drive_suffix hdrive)]
    rfl

structure Ready (p : Sax) : Prop where
  pos : p.pos = 0
  unfinished : p.finished = false

theorem Ready.unread (h : p.Ready) : p.unread = p.buffer := by
  rw [Sax.unread, h.pos, List.drop_zero]

/-- The calls for the rest of the bytes are those without a buffer. -/
theorem Ready.calls (h : p.Ready) (pieces : List (List Char)) :
    (((pieces.foldlM (fun p piece => Sax.feed reads p piece) p).bind fun p =>
      (p.finish reads).map fun p => p.machine.events)).toOption =
      driven reads p.machine (p.buffer ++ pieces.flatten) := by
  induction pieces generalizing p with
  | nil =>
    rw [List.flatten_nil, List.append_nil, List.foldlM_nil]
    change ((p.finish reads).map fun p => p.machine.events).toOption = _
    rw [finish, if_neg (by simp [h.unfinished]), run_eq]
    have hunread : Sax.unread { p with finished := true } = p.buffer := h.unread
    rw [hunread, driven]
    cases hdrive : drive reads true p.machine p.buffer with
    | error message => rfl
    | ok r =>
      change Except.toOption (Except.map _ (if r.1.done = true then _ else _)) = _
      dsimp only
      split_ifs <;> rfl
  | cons piece pieces ih =>
    rw [List.flatten_cons, List.foldlM_cons, feed, if_neg (by simp [h.unfinished])]
    by_cases hpiece : piece = []
    · rw [if_pos hpiece, hpiece, List.nil_append]
      exact ih h
    · rw [if_neg hpiece, run_eq]
      have hunread : Sax.unread { p with buffer := p.buffer ++ piece } = p.buffer ++ piece := by
        rw [Sax.unread, h.pos, List.drop_zero]
      rw [hunread, ← List.append_assoc, driven_append]
      cases hdrive : drive reads false p.machine (p.buffer ++ piece) with
      | error message => rfl
      | ok r => exact ih ⟨rfl, h.unfinished⟩

end Sax

theorem feedPieces_driven (reads : List Char → Bool) (pieces : List (List Char)) :
    (feedPieces reads pieces).toOption = driven reads .init pieces.flatten :=
  Sax.Ready.calls (p := Sax.create) ⟨rfl, rfl⟩ pieces

/-- However the bytes are cut, and whatever the buffer keeps between two calls, the calls of the
callbacks are those for the bytes fed at once, which go through the tokens one after the other. -/
theorem sax_segmentation_invariant (reads : List Char → Bool) (pieces : List (List Char)) :
    (feedPieces reads pieces).toOption = (feedPieces reads [pieces.flatten]).toOption ∧
      (feedPieces reads pieces).toOption = driven reads .init pieces.flatten := by
  have hpieces := feedPieces_driven reads pieces
  have honce := feedPieces_driven reads [pieces.flatten]
  rw [List.flatten_singleton] at honce
  exact ⟨hpieces.trans honce.symm, hpieces⟩

end Json
