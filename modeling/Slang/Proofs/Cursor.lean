import Slang.Proofs.Seams

/-!
# A cursor and the stream

The stream of tokens ends with the end of the input or with an error.  A cursor over the same text
can be asked for ever.

* `Cursor.calls` — the answers to some calls, and the cursor behind them.
* `stopOf` — the offset behind the last of some reports.
* `ahead` — the stream from an offset on.
* `scan_cases` — a call finds just what the stream goes on with.
* `Cursor.calls_fixed` — a cursor that a call does not move gives one answer for ever.
* `calls_eq` — the answers to any number of calls, from any offset on.

Principal result: `cursor_follows_stream` — a cursor answers with the tokens of the stream, and then
with its end or its error again and again.
-/

set_option autoImplicit false

namespace Slang.Token

/-- The answers to so many calls, and the cursor behind them. -/
def Cursor.calls : Nat → Cursor → List (Except CompileError Token) × Cursor
  | 0, c => ([], c)
  | n + 1, c => (c.next.1 :: (calls n c.next.2).1, (calls n c.next.2).2)

/-- The offset behind the last of some reports, or the one that they were read from. -/
def stopOf (pos : Nat) (reports : List TokenReport) : Nat :=
  (reports.getLast?.map (·.stop)).getD pos

/-- The stream from an offset on. -/
def ahead (source : List Char) (pos : Nat) : Trace TokenReport (Except CompileError Unit) :=
  tokensFrom pos 0 (source.drop pos)

variable {source rest : List Char} {pos : Nat} {c : Char}

/-! ## One call -/

theorem drop_behind {w : List Char} (h : source.drop pos = w ++ rest) :
    source.drop (pos + w.length) = rest := by
  rw [← List.drop_drop, h, List.drop_left]

theorem ahead_blank (h : source.drop pos = c :: rest) (hc : isBlank c = true) :
    ahead source pos = ahead source (pos + 1) := by
  have hrest : source.drop (pos + 1) = rest := drop_behind (w := [c]) h
  rw [ahead, h, tokensFrom, if_pos hc, ahead, hrest]

theorem scan_blank (h : source.drop pos = c :: rest) (hc : isBlank c = true) :
    scan source pos = scan source (pos + 1) := by
  have hrest : source.drop (pos + 1) = rest := drop_behind (w := [c]) h
  have hstart : pos + ((rest.takeWhile isBlank).length + 1) =
      pos + 1 + (rest.takeWhile isBlank).length := by omega
  simp only [scan, h, hrest, List.takeWhile_cons, hc, if_true, List.length_cons, hstart]

/-- Away from blanks a scan reads what is there. -/
theorem scan_first (h : source.drop pos = c :: rest) (hc : isBlank c = false) :
    scan source pos = match Lexeme.first c rest with
      | .ok l => .ok (pos + l.size, l.toToken pos)
      | .error cause => .error ⟨cause, some pos⟩ := by
  cases hfirst : Lexeme.first c rest <;>
    simp only [scan, h, List.takeWhile_cons, hc, Bool.false_eq_true, if_false, List.length_nil,
      Nat.add_zero, hfirst]

/-- **A call finds what the stream goes on with**: a token, the end of the input or an error.  The
induction is on what is left of the text. -/
theorem scan_cases (hpos : pos ≤ source.length) :
    (∃ stop t, scan source pos = .ok (stop, t) ∧ stop ≤ source.length ∧
      ahead source pos = .emit ⟨t, stop⟩ fun _ => ahead source stop) ∨
    (scan source pos = .ok (source.length, atEnd source.length) ∧
      ahead source pos = .emit ⟨atEnd source.length, source.length⟩ fun _ => .done (.ok ())) ∨
    ∃ e, scan source pos = .error e ∧ ahead source pos = .done (.error e) := by
  induction hleft : source.drop pos generalizing pos with
  | nil =>
    obtain rfl : pos = source.length := Nat.le_antisymm hpos (List.drop_eq_nil_iff.mp hleft)
    refine .inr (.inl ⟨?_, ?_⟩)
    · simp [scan]
    · rw [ahead, hleft]
      rfl
  | cons c rest ih =>
    by_cases hc : isBlank c = true
    · -- Both pass over a blank.
      rw [scan_blank hleft hc, ahead_blank hleft hc]
      apply ih
      · have hlength := congrArg List.length hleft
        rw [List.length_drop, List.length_cons] at hlength
        omega
      · exact drop_behind (w := [c]) hleft
    · rw [scan_first hleft (Bool.eq_false_iff.mpr hc)]
      cases hfirst : Lexeme.first c rest with
      | error cause =>
        refine .inr (.inr ⟨_, rfl, ?_⟩)
        rw [ahead, hleft, tokensFrom, if_neg hc, hfirst]
      | ok l =>
        obtain ⟨w, hsize, hw⟩ := Lexeme.first_iff.mp hfirst
        obtain ⟨behind, hbehind⟩ := hw.starts
        rw [← hbehind] at hw hleft
        refine .inl ⟨pos + l.size, l.toToken pos, rfl, ?_, ?_⟩
        · have hlength := congrArg List.length hleft
          rw [List.length_drop, List.length_append] at hlength
          omega
        · rw [ahead, hleft, tokensFrom_token hw, ahead, ← hsize, drop_behind hleft]
          rfl

/-- The end of the input is found again where it was found. -/
theorem scan_end {stop : Nat} {t : Token} (h : scan source pos = .ok (stop, t))
    (ht : t.kind = .endOfInput) : scan source stop = .ok (stop, t) := by
  unfold scan at h
  dsimp only at h
  split at h
  · rename_i hnil
    cases h
    simp [scan, hnil]
  · rename_i c rest _
    cases hfirst : Lexeme.first c rest with
    | error cause =>
      rw [hfirst] at h
      cases h
    | ok l =>
      rw [hfirst] at h
      cases h
      obtain ⟨w, -, hw⟩ := Lexeme.first_iff.mp hfirst
      exact absurd ht hw.kind

/-! ## Many calls -/

namespace Cursor

variable {a : Except CompileError Token} {t : Token} {e : CompileError} {c c' : Cursor}

/-- A cursor that a call does not move gives one answer for ever. -/
theorem calls_fixed (h : c.next = (a, c)) (n : Nat) : c.calls n = (List.replicate n a, c) := by
  induction n with
  | zero => rfl
  | succ n ih => rw [calls, h, ih, List.replicate_succ]

/-- The last of some calls. -/
theorem calls_succ (n : Nat) (c : Cursor) :
    c.calls (n + 1) = ((c.calls n).1 ++ [(c.calls n).2.next.1], (c.calls n).2.next.2) := by
  induction n generalizing c with
  | zero => rfl
  | succ n ih =>
    rw [calls, ih]
    rfl

/-- A cursor that has come to the end of the input stays there. -/
theorem next_end (h : c.next = (.ok t, c')) (ht : t.kind = .endOfInput) :
    c'.next = (.ok t, c') := by
  unfold next at h
  split at h
  · rename_i stop t' hscan
    cases h
    rw [next, scan_end hscan ht]
  · cases h

/-- An error leaves the cursor where it is. -/
theorem next_error (h : c.next = (.error e, c')) : c' = c := by
  unfold next at h
  split at h
  · cases h
  · cases h
    rfl

end Cursor

theorem stopOf_cons (pos : Nat) (r : TokenReport) (reports : List TokenReport) :
    stopOf pos (r :: reports) = stopOf r.stop reports := by
  cases reports with
  | nil => rfl
  | cons r' reports => simp [stopOf, List.getLast?_cons]

/-- **The answers to any number of calls**: what the stream has ahead, and behind it the end of the
input or the error, as often as it is asked for. -/
theorem calls_eq (n : Nat) : ∀ pos ≤ source.length, Cursor.calls n ⟨source, pos⟩ =
    (((ahead source pos).reports.take n).map (fun r => .ok r.token) ++
        List.replicate (n - (ahead source pos).reports.length)
          ((ahead source pos).value.map fun _ => atEnd source.length),
      ⟨source, stopOf pos ((ahead source pos).reports.take n)⟩) := by
  induction n with
  | zero =>
    intro pos _
    simp [Cursor.calls, stopOf]
  | succ n ih =>
    intro pos hpos
    rcases scan_cases hpos with
      ⟨stop, t, hscan, hstop, hahead⟩ | ⟨hscan, hahead⟩ | ⟨e, hscan, hahead⟩
    · have hnext : Cursor.next ⟨source, pos⟩ = (.ok t, ⟨source, stop⟩) := by
        rw [Cursor.next, hscan]
      rw [Cursor.calls, hnext, ih stop hstop, hahead]
      simp [Trace.reports, Trace.value, stopOf_cons]
    · have hnext : Cursor.next ⟨source, pos⟩ =
          (.ok (atEnd source.length), ⟨source, source.length⟩) := by
        rw [Cursor.next, hscan]
      rw [Cursor.calls, hnext, Cursor.calls_fixed (Cursor.next_end hnext rfl), hahead]
      simp [Trace.reports, Trace.value, stopOf, Except.map]
    · have hnext : Cursor.next ⟨source, pos⟩ = (.error e, ⟨source, pos⟩) := by
        rw [Cursor.next, hscan]
      rw [Cursor.calls_fixed hnext, hahead]
      simp [Trace.reports, Trace.value, stopOf, Except.map]

/-- The answers to any number of calls from the start of a text. -/
theorem calls_start (source : List Char) (n : Nat) : (Cursor.start source).calls n =
    (((tokenize source).reports.take n).map (fun r => .ok r.token) ++
        List.replicate (n - (tokenize source).reports.length)
          ((tokenize source).value.map fun _ => atEnd source.length),
      ⟨source, stopOf 0 ((tokenize source).reports.take n)⟩) :=
  calls_eq n 0 (Nat.zero_le _)

/-- All answers are tokens of the stream or how it ends. -/
theorem answer_cases {n : Nat} {a : Except CompileError Token}
    (ha : a ∈ ((Cursor.start source).calls n).1) :
    (∃ r ∈ (tokenize source).reports, a = .ok r.token) ∨
      (tokenize source).reports.length < n ∧
        a = (tokenize source).value.map fun _ => atEnd source.length := by
  rw [calls_start] at ha
  rcases List.mem_append.mp ha with ha | ha
  · obtain ⟨r, hr, rfl⟩ := List.mem_map.mp ha
    exact .inl ⟨r, List.mem_of_mem_take hr, rfl⟩
  · obtain ⟨hn, rfl⟩ := List.mem_replicate.mp ha
    exact .inr ⟨Nat.lt_of_sub_ne_zero hn, rfl⟩

/-- **A cursor follows the stream.** The answers to any number of calls are the first tokens of the
stream, and where these are not enough the end of the input or the error of the stream, as often as
it is asked for; the cursor is then behind the last of the reports. Once the end of the input has
been the answer it is the answer to every further call, and once an error has been the answer that
error is; then the cursor is behind the last token of the stream. In both cases it stays there. -/
theorem cursor_follows_stream (source : List Char) :
    (∀ n, (Cursor.start source).calls n =
      (((tokenize source).reports.take n).map (fun r => .ok r.token) ++
          List.replicate (n - (tokenize source).reports.length)
            ((tokenize source).value.map fun _ => atEnd source.length),
        ⟨source, stopOf 0 ((tokenize source).reports.take n)⟩)) ∧
    (∀ n t c, ((Cursor.start source).calls n).2.next = (.ok t, c) → t.kind = .endOfInput →
      ∀ m, c.calls m = (List.replicate m (.ok t), c)) ∧
    ∀ n e c, ((Cursor.start source).calls n).2.next = (.error e, c) →
      (tokenize source).value = .error e ∧ (tokenize source).reports.length ≤ n ∧
      c = ⟨source, stopOf 0 (tokenize source).reports⟩ ∧
      ((Cursor.start source).calls n).2 = c ∧
      ∀ m, c.calls m = (List.replicate m (.error e), c) := by
  refine ⟨calls_start source, ?_, ?_⟩
  · intro n t c hnext ht m
    exact Cursor.calls_fixed (Cursor.next_end hnext ht) m
  · intro n e c hnext
    have hstay := Cursor.next_error hnext
    have hanswer : .error e ∈ ((Cursor.start source).calls (n + 1)).1 := by
      rw [Cursor.calls_succ, hnext]
      exact List.mem_append_right _ (List.mem_singleton_self _)
    rcases answer_cases hanswer with ⟨r, -, hr⟩ | ⟨hn, hvalue⟩
    · cases hr
    · have hlength := Nat.le_of_lt_succ hn
      refine ⟨?_, hlength, ?_, hstay.symm, ?_⟩
      · cases hv : (tokenize source).value with
        | ok done =>
          rw [hv] at hvalue
          cases hvalue
        | error e' =>
          rw [hv] at hvalue
          cases hvalue
          rfl
      · rw [hstay, calls_start, List.take_of_length_le hlength]
      · exact Cursor.calls_fixed (hstay ▸ hnext)

/-- Blanks behind the last token: in front of an error a cursor does not pass over them, and at the
end of the text it does. -/
theorem cursor_follows_stream_blanks :
    (∃ e c, ((Cursor.start "x  $".toList).calls 1).2.next = (.error e, c) ∧ c.pos = 1 ∧
      c.calls 2 = ([.error e, .error e], c)) ∧
    ∃ t c, ((Cursor.start "x  ".toList).calls 1).2.next = (.ok t, c) ∧ t.kind = .endOfInput ∧
      c.pos = 3 ∧ c.calls 2 = ([.ok t, .ok t], c) := by
  have herror : ((Cursor.start "x  $".toList).calls 1).2.next =
      (.error ⟨.unexpectedCharacter '$', some 3⟩, ⟨"x  $".toList, 1⟩) := by rfl
  have hend : ((Cursor.start "x  ".toList).calls 1).2.next =
      (.ok (atEnd 3), ⟨"x  ".toList, 3⟩) := by rfl
  obtain ⟨-, -, -, -, hstays⟩ := (cursor_follows_stream "x  $".toList).2.2 1 _ _ herror
  have hagain := (cursor_follows_stream "x  ".toList).2.1 1 _ _ hend rfl
  exact ⟨⟨_, _, herror, rfl, hstays 2⟩, _, _, hend, rfl, rfl, hagain 2⟩

end Slang.Token
