import ComponentGraph.Proofs.DataType.Watched
import ComponentGraph.Proofs.Token.Stream

/-!
# The bounds of parsing

The parser under watch gives what the parser gives, on every text and from every scanner, and
neither of its bounds is ever used up: the test of the depth stands before every container, and each
turn of the loop takes a token. What it takes is the beginning of the stream, so the end of the
input is at most the last of it.
-/

set_option autoImplicit false

namespace ComponentGraph

namespace Scanner

theorem length_stream (s : Scanner) : s.stream.length = s.tokens.1.length + 1 := by
  rw [stream, List.length_append, List.length_singleton]

theorem read_isPrefix_stream (s : Scanner) : [s.read.1] <+: s.stream := by
  by_cases h : s.read.1.kind = .endOfInput
  · exact ⟨[], (stream_of_endOfInput h).symm⟩
  · exact ⟨s.read.2.stream, (stream_cons h).symm⟩

theorem kind_ne_of_mem_tokens {s : Scanner} {t : Token} (h : t ∈ s.tokens.1) :
    t.kind ≠ .endOfInput := by
  have hlexeme : t.lexeme ∈ Lexeme.scan s.unread := s.tokens_lexeme ▸ List.mem_map_of_mem h
  exact (Lexeme.proper_of_mem_scan hlexeme).ne_ending

theorem countP_stream_le (s : Scanner) : s.stream.countP (·.kind = .endOfInput) ≤ 1 := by
  have hnone : s.tokens.1.countP (·.kind = .endOfInput) = 0 := by
    rw [List.countP_eq_zero]
    intro t ht
    simpa using kind_ne_of_mem_tokens ht
  have hone := List.countP_le_length (p := (·.kind = .endOfInput)) (l := [s.tokens.2.read.1])
  rw [stream, List.countP_append, hnone, Nat.zero_add]
  exact hone

end Scanner

namespace Reading

variable {α β : Type} {s : Scanner}

/-- The tokens that were taken: all up to where the reading stops, or some of the first ones when it
fails. -/
def Spends (r : Reading s α) (ts : List Token) : Prop :=
  match r.result with
  | .ok _ => s.stream = ts ++ r.stop.stream
  | .error _ => ts <+: s.stream

theorem Spends.after {s' : Scanner} {r : Reading s' α} {ts ts' : List Token} (h : r.Spends ts')
    (hle : s'.unread.length ≤ s.unread.length) (hs : s.stream = ts ++ s'.stream) :
    (r.weaken hle).Spends (ts ++ ts') := by
  obtain ⟨result, stop, _⟩ := r
  cases result with
  | ok a =>
    have hstop : s'.stream = ts' ++ stop.stream := h
    exact hs.trans (by rw [hstop, List.append_assoc]; rfl)
  | error e =>
    have hprefix : ts' <+: s'.stream := h
    change _ <+: _
    rw [hs]
    exact List.prefix_append_right_inj ts |>.mpr hprefix

end Reading

namespace Watched

open Reading Scanner

variable {α β : Type} {s : Scanner}

/-- The watched computation gives what the reading gives and stops where it stops. What it takes is
spent, and no type is asked for inside of too many containers. -/
def Follows (x : Watched α) (r : Reading s α) : Prop :=
  ∀ taken depths, ∃ ts ds,
    x.run.run ⟨s, taken, depths⟩ = some (r.result, ⟨r.stop, taken ++ ts, depths ++ ds⟩) ∧
    r.Spends ts ∧ ∀ d ∈ ds, d ≤ DataType.maxDepth

theorem follows_done (a : α) : Follows (pure a) (done s a) := fun taken depths =>
  ⟨[], [], by simp [done], by simp [Spends, done], by simp⟩

theorem follows_fail (e : Fault) : Follows (throw e : Watched α) (fail s e) := fun taken depths =>
  ⟨[], [], by simp only [List.append_nil]; rfl, by simp [Spends, fail], by simp⟩

theorem follows_map {x : Watched α} {r : Reading s α} (f : α → β) (h : Follows x r) :
    Follows (f <$> x) (r.map f) := by
  intro taken depths
  obtain ⟨ts, ds, hrun, hspends, hds⟩ := h taken depths
  refine ⟨ts, ds, ?_, ?_, hds⟩
  · rw [ExceptT.run_map, StateT.run_map, hrun]
    rfl
  · unfold Spends Reading.map at *
    cases hr : r.result <;> rw [hr] at hspends <;> exact hspends

theorem run_bind_ok {x : Watched α} {f : α → Watched β} {w w' : Watch} {a : α}
    (h : x.run.run w = some (.ok a, w')) : (x >>= f).run.run w = (f a).run.run w' := by
  rw [ExceptT.run_bind, StateT.run_bind, h]
  rfl

theorem run_bind_error {x : Watched α} {f : α → Watched β} {w w' : Watch} {e : Fault}
    (h : x.run.run w = some (.error e, w')) : (x >>= f).run.run w = some (.error e, w') := by
  rw [ExceptT.run_bind, StateT.run_bind, h]
  rfl

theorem follows_andThen {x : Watched α} {r : Reading s α} {f : α → Watched β}
    {g : α → (s' : Scanner) → s'.unread.length ≤ s.unread.length → Reading s' β}
    (hx : Follows x r)
    (hf : r.stop.stream <:+ s.stream → ∀ a, Follows (f a) (g a r.stop r.length_le)) :
    Follows (x >>= f) (r.andThen g) := by
  intro taken depths
  obtain ⟨ts, ds, hrun, hspends, hds⟩ := hx taken depths
  obtain ⟨result, stop, hle⟩ := r
  cases result with
  | ok a =>
    have hstream : s.stream = ts ++ stop.stream := hspends
    have hsuffix : stop.stream <:+ s.stream := hstream ▸ List.suffix_append _ _
    obtain ⟨ts', ds', hrun', hspends', hds'⟩ := hf hsuffix a (taken ++ ts) (depths ++ ds)
    refine ⟨ts ++ ts', ds ++ ds', ?_, hspends'.after hle hstream, ?_⟩
    · rw [run_bind_ok hrun, hrun', List.append_assoc, List.append_assoc]
      rfl
    · exact List.forall_mem_append.mpr ⟨hds, hds'⟩
  | error e => exact ⟨ts, ds, run_bind_error hrun, hspends, hds⟩

theorem run_take (w : Watch) :
    take.run.run w = some (.ok w.scanner.read.1,
      { w with scanner := w.scanner.read.2, taken := w.taken ++ [w.scanner.read.1] }) := by
  change w.scanner.read?.map _ = _
  rw [Scanner.read?_eq]
  rfl

theorem run_ask (depth : Nat) (w : Watch) :
    (ask depth).run.run w = some (.ok w.scanner.read.1,
      ⟨w.scanner.read.2, w.taken ++ [w.scanner.read.1], w.depths ++ [depth]⟩) := by
  have hmodify : (modify fun w => { w with depths := w.depths ++ [depth] } :
      Watched Unit).run.run w = some (.ok ⟨⟩, { w with depths := w.depths ++ [depth] }) := rfl
  rw [ask, run_bind_ok hmodify, run_take]

theorem run_expect (kinds : List TokenKind) (w : Watch) :
    (expect kinds).run.run w = some ((w.scanner.expect kinds).1,
      { w with scanner := w.scanner.read.2, taken := w.taken ++ [w.scanner.read.1] }) := by
  rw [expect, run_bind_ok (run_take w), Scanner.expect]
  dsimp only
  split <;> rfl

theorem follows_expecting {kinds : List TokenKind} {hk : TokenKind.endOfInput ∉ kinds}
    {f : Token → Watched α}
    {g : Token → (s' : Scanner) → s'.unread.length < s.unread.length → Reading s' α}
    (h : s.stream = s.read.1 :: s.read.2.stream →
      ∀ hlt, Follows (f s.read.1) (g s.read.1 s.read.2 hlt)) :
    Follows (expect kinds >>= f) (s.expecting kinds hk g) := by
  intro taken depths
  have hrun := run_expect kinds ⟨s, taken, depths⟩
  unfold Scanner.expecting
  split
  · rename_i hkind
    have hstream := stream_cons fun he => hk (he ▸ hkind)
    have hresult : (s.expect kinds).1 = .ok s.read.1 := if_pos hkind
    rw [hresult] at hrun
    obtain ⟨ts, ds, hrun', hspends, hds⟩ :=
      h hstream (read_length_lt fun he => hk (he ▸ hkind)) (taken ++ [s.read.1]) depths
    refine ⟨[s.read.1] ++ ts, ds, ?_, hspends.after s.read_length_le hstream, hds⟩
    rw [run_bind_ok hrun, hrun', List.append_assoc]
    rfl
  · rename_i hkind
    have hresult : (s.expect kinds).1 = .error s.read.1.unexpected := if_neg hkind
    rw [hresult] at hrun
    refine ⟨[s.read.1], [], ?_, read_isPrefix_stream s, by simp⟩
    rw [run_bind_error hrun, List.append_nil]

theorem follows_remaining {f : Nat → Watched α} {r : Reading s α}
    (h : Follows (f s.tokens.1.length) r) : Follows (remaining >>= f) r := by
  intro taken depths
  obtain ⟨ts, ds, hrun, h⟩ := h taken depths
  have hremaining : remaining.run.run ⟨s, taken, depths⟩ =
      some (.ok s.tokens.1.length, ⟨s, taken, depths⟩) := rfl
  exact ⟨ts, ds, by rw [run_bind_ok hremaining, hrun], h⟩

/-- Both fail without taking a token. -/
def FailAtOnce (x : Watched α) (r : Reading s α) : Prop :=
  ∃ e, (∀ w, x.run.run w = some (.error e, w)) ∧ r = fail s e

theorem FailAtOnce.bind {x : Watched α} {r : Reading s α} (h : FailAtOnce x r)
    (f : α → Watched β)
    (g : α → (s' : Scanner) → s'.unread.length ≤ s.unread.length → Reading s' β) :
    FailAtOnce (x >>= f) (r.andThen g) := by
  obtain ⟨e, hx, rfl⟩ := h
  exact ⟨e, fun w => run_bind_error (hx w), rfl⟩

theorem FailAtOnce.follows {x : Watched α} {r : Reading s α} (h : FailAtOnce x r) :
    Follows x r := by
  obtain ⟨e, hx, rfl⟩ := h
  intro taken depths
  exact ⟨[], [], by rw [hx, List.append_nil, List.append_nil]; rfl, List.nil_prefix, by simp⟩

theorem follows_asking {depth : Nat} {f : Token → Watched α}
    {g : Token → (s' : Scanner) → s'.unread.length ≤ s.unread.length → Reading s' α}
    (hdepth : depth ≤ DataType.maxDepth)
    (hend : s.read.1.kind = .endOfInput →
      FailAtOnce (f s.read.1) (g s.read.1 s.read.2 s.read_length_le))
    (h : s.stream = s.read.1 :: s.read.2.stream →
      Follows (f s.read.1) (g s.read.1 s.read.2 s.read_length_le)) :
    Follows (ask depth >>= f) (s.taking g) := by
  intro taken depths
  have hrun := run_ask depth ⟨s, taken, depths⟩
  -- behind the end of the input nothing more is taken, or that would be in the stream twice
  by_cases hkind : s.read.1.kind = .endOfInput
  · obtain ⟨e, hx, hg⟩ := hend hkind
    refine ⟨[s.read.1], [depth], ?_, ?_, by simpa⟩
    · rw [run_bind_ok hrun, hx, taking, hg]
      rfl
    · rw [taking, hg]
      exact read_isPrefix_stream s
  · have hstream := stream_cons hkind
    obtain ⟨ts, ds, hrun', hspends, hds⟩ := h hstream (taken ++ [s.read.1]) (depths ++ [depth])
    refine ⟨[s.read.1] ++ ts, depth :: ds, ?_, hspends.after s.read_length_le hstream, ?_⟩
    · rw [run_bind_ok hrun, hrun', List.append_assoc, List.append_assoc]
      rfl
    · exact List.forall_mem_cons.mpr ⟨hdepth, hds⟩

end Watched

namespace DataType

open Watched Scanner

theorem typeWithin_failAtOnce (levels depth : Nat) (first : Token) (s : Scanner)
    (h : first.kind = .endOfInput) :
    FailAtOnce (typeWithin levels first depth) (startingWith first depth s) := by
  have hkind : first.kind ≠ .identifier := by simp [h]
  rw [typeWithin, startingWith, if_pos hkind, if_pos hkind]
  exact ⟨_, fun _ => rfl, rfl⟩

section Fields

variable {element : Token → Watched DataType} {depth : Nat} (hdepth : depth ≤ maxDepth)
  (hend : ∀ (first : Token) (s : Scanner), first.kind = .endOfInput →
    FailAtOnce (element first) (startingWith first depth s))
  (helement : ∀ (first : Token) (s : Scanner),
    Follows (element first) (startingWith first depth s))

include hdepth hend helement

theorem fieldWithin_follows {next : Fields → Watched Fields} {s : Scanner}
    (hnext : ∀ (known : Fields) (s' : Scanner), s'.stream.length < s.stream.length →
      Follows (next known) (fieldsAfter known false depth s')) (known : Fields) (start : Bool) :
    Follows (fieldWithin element depth next known start) (fieldsAfter known start depth s) := by
  rw [fieldWithin, fieldsAfter]
  refine follows_asking hdepth ?_ ?_
  · intro hkind
    have hopen : ¬ (start && s.read.1.kind == .closeAngle) = true := by simp [hkind]
    rw [if_neg hopen, if_neg hopen]
    exact (hend _ _ hkind).bind _ _
  · intro hstream
    split
    · exact follows_done known
    refine follows_andThen (helement _ _) fun hsuffix type => ?_
    refine follows_expecting fun hname _ => ?_
    split
    · exact follows_fail _
    refine follows_expecting fun hseparator _ => ?_
    split
    · exact follows_done _
    -- the turn took the first token of a type, at least
    apply hnext
    have hlength := hsuffix.length_le
    simp only [hstream, hname, hseparator, List.length_cons] at *
    omega

theorem fieldsWithin_follows (repetitions : Nat) (known : Fields) (start : Bool) (s : Scanner)
    (hs : s.tokens.1.length ≤ repetitions) :
    Follows (fieldsWithin element depth repetitions known start)
      (fieldsAfter known start depth s) := by
  induction repetitions generalizing known start s with
  | zero =>
    refine fieldWithin_follows hdepth hend helement (fun known s' hlt => ?_) known start
    rw [length_stream, length_stream] at hlt
    omega
  | succ repetitions ih =>
    refine fieldWithin_follows hdepth hend helement (fun known s' hlt => ?_) known start
    rw [length_stream, length_stream] at hlt
    apply ih
    omega

end Fields

theorem typeWithin_follows (levels : Nat) (first : Token) (depth : Nat)
    (hlevels : levels + depth = maxDepth) (s : Scanner) :
    Follows (typeWithin levels first depth) (startingWith first depth s) := by
  induction levels generalizing first depth s with
  | zero =>
    rw [typeWithin, startingWith]
    split
    · exact follows_fail _
    cases TypeWord.ofText? first.text with
    | none => exact follows_fail _
    | some word =>
      dsimp only
      -- no level is left only where the test of the depth refuses one more container
      have hdeep : decide (maxDepth ≤ depth) = true := by
        rw [decide_eq_true_iff]
        omega
      rw [hdeep, Bool.and_true]
      cases word with
      | string | int | bool => rw [ofWord]; exact follows_done _
      | list | map | record => exact follows_fail _
  | succ levels ih =>
    rw [typeWithin, startingWith]
    split
    · exact follows_fail _
    cases TypeWord.ofText? first.text with
    | none => exact follows_fail _
    | some word =>
      dsimp only
      split
      · exact follows_fail _
      have hdepth : depth + 1 ≤ maxDepth := by omega
      have hinner : levels + (depth + 1) = maxDepth := by omega
      have hend := typeWithin_failAtOnce levels (depth + 1)
      cases word with
      | string | int | bool => rw [ofWord]; exact follows_done _
      | list =>
        rw [ofWord]
        refine follows_expecting fun _ _ => ?_
        refine follows_asking hdepth (fun h => (hend _ _ h).bind _ _) fun _ => ?_
        refine follows_andThen (ih _ _ hinner _) fun _ element => ?_
        exact follows_expecting fun _ _ => follows_done _
      | map =>
        rw [ofWord]
        refine follows_expecting fun _ _ => ?_
        refine follows_asking hdepth (fun h => (hend _ _ h).bind _ _) fun _ => ?_
        refine follows_andThen (ih _ _ hinner _) fun _ key => ?_
        refine follows_expecting fun _ _ => ?_
        refine follows_asking hdepth (fun h => (hend _ _ h).bind _ _) fun _ => ?_
        refine follows_andThen (ih _ _ hinner _) fun _ value => ?_
        exact follows_expecting fun _ _ => follows_done _
      | record =>
        rw [ofWord]
        refine follows_expecting fun _ _ => follows_remaining (follows_map record ?_)
        exact fieldsWithin_follows hdepth hend (ih · _ hinner ·) _ _ _ _ (Nat.le_refl _)

theorem readWatched_follows (s : Scanner) : Follows readWatched (read s) :=
  follows_asking (Nat.zero_le _) (typeWithin_failAtOnce maxDepth 0 _ _) fun _ =>
    typeWithin_follows maxDepth _ 0 rfl _

def stopOfParse (text : String) : Scanner :=
  let r := read (.ofString text)
  match r.result with
  | .ok _ => (r.stop.expect [.endOfInput]).2
  | .error _ => r.stop

theorem run_parseWatched (text : String) : ∃ ts ds,
    parseWatched.run.run ⟨.ofString text, [], []⟩ = some (parse text, ⟨stopOfParse text, ts, ds⟩) ∧
    ts <+: (ofString text).stream ∧ ∀ d ∈ ds, d ≤ maxDepth := by
  obtain ⟨ts, ds, hrun, hspends, hds⟩ := readWatched_follows (ofString text) [] []
  rw [List.nil_append, List.nil_append] at hrun
  rw [parse, stopOfParse]
  generalize read (ofString text) = r at hrun hspends
  obtain ⟨result, stop, hle⟩ := r
  cases result with
  | error e => exact ⟨ts, ds, run_bind_error hrun, hspends, hds⟩
  | ok type =>
    have hend := run_expect [.endOfInput] ⟨stop, ts, ds⟩
    have hstream : (ofString text).stream = ts ++ stop.stream := hspends
    have htaken : ts ++ [stop.read.1] <+: (ofString text).stream := by
      rw [hstream]
      exact (List.prefix_append_right_inj ts).mpr (read_isPrefix_stream stop)
    refine ⟨ts ++ [stop.read.1], ds, ?_, htaken, hds⟩
    rw [parseWatched, run_bind_ok hrun]
    cases hresult : (stop.expect [.endOfInput]).1 with
    | ok t =>
      rw [hresult] at hend
      rw [run_bind_ok hend]
      rfl
    | error e =>
      rw [hresult] at hend
      rw [run_bind_error hend]
      rfl

/-- The parser under watch has a result, and it is that of the parser, which it follows to where
that stops. What it takes are the first tokens of the text, one more than there are before the end
of the input at most and this end once at most. No type is asked for inside of more containers than
are allowed. -/
theorem parse_within_bounds (text : String) : ∃ ts ds,
    parseWatched.run.run ⟨.ofString text, [], []⟩ = some (parse text, ⟨stopOfParse text, ts, ds⟩) ∧
    ts <+: (ofString text).stream ∧ ts.length ≤ (ofString text).tokens.1.length + 1 ∧
    ts.countP (·.kind = .endOfInput) ≤ 1 ∧ ∀ d ∈ ds, d ≤ 128 := by
  obtain ⟨ts, ds, hrun, htaken, hdepths⟩ := run_parseWatched text
  refine ⟨ts, ds, hrun, htaken, ?_, ?_, hdepths⟩
  · have hlength := htaken.length_le
    rwa [length_stream] at hlength
  · exact htaken.sublist.countP_le.trans (countP_stream_le _)

end DataType

end ComponentGraph
