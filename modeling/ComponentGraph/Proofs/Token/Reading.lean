import ComponentGraph.Token.Reading
import ComponentGraph.Proofs.Token.Stream

/-!
# What a reading meets

A reading meets two postconditions, one on its result and one on its fault, each together with
the scanner where it stops. Every combinator has one rule, so a recursion over readings is followed
step by step without looking at the bounds that it carries.
-/

set_option autoImplicit false

namespace ComponentGraph

namespace Reading

variable {α β : Type} {s : Scanner} {good : α → Scanner → Prop} {bad : Fault → Scanner → Prop}

def Meets (r : Reading s α) (good : α → Scanner → Prop) (bad : Fault → Scanner → Prop) : Prop :=
  match r.result with
  | .ok a => good a r.stop
  | .error e => bad e r.stop

@[simp] theorem meets_done {a : α} : (done s a).Meets good bad ↔ good a s := Iff.rfl

@[simp] theorem meets_fail {e : Fault} :
    (fail s e : Reading s α).Meets good bad ↔ bad e s := Iff.rfl

@[simp] theorem meets_map {f : β → α} {r : Reading s β} :
    (r.map f).Meets good bad ↔ r.Meets (fun b => good (f b)) bad := by
  simp only [Meets, map]
  cases r.result <;> exact Iff.rfl

@[simp] theorem meets_andThen {r : Reading s β}
    {f : β → (s' : Scanner) → s'.unread.length ≤ s.unread.length → Reading s' α} :
    (r.andThen f).Meets good bad ↔
      r.Meets (fun b s' => ∀ h, (f b s' h).Meets good bad) bad := by
  obtain ⟨result, stop, hlen⟩ := r
  cases result with
  | ok b => exact ⟨fun h _ => h, fun h => h hlen⟩
  | error e => exact Iff.rfl

@[simp] theorem meets_taking
    {f : Token → (s' : Scanner) → s'.unread.length ≤ s.unread.length → Reading s' α} :
    (s.taking f).Meets good bad ↔ (f s.read.1 s.read.2 s.read_length_le).Meets good bad := Iff.rfl

theorem meets_expecting {kinds : List TokenKind} {hk : TokenKind.endOfInput ∉ kinds}
    {f : Token → (s' : Scanner) → s'.unread.length < s.unread.length → Reading s' α}
    (hbad : s.read.1.kind ∉ kinds → bad s.read.1.unexpected s.read.2)
    (hgood : s.read.1.kind ∈ kinds → ∀ h, (f s.read.1 s.read.2 h).Meets good bad) :
    (s.expecting kinds hk f).Meets good bad := by
  unfold Scanner.expecting
  split
  · exact hgood ‹_› _
  · exact hbad ‹_›

theorem meets_expected {kinds : List TokenKind} {hk : TokenKind.endOfInput ∉ kinds}
    {f : Token → (s' : Scanner) → s'.unread.length < s.unread.length → Reading s' α} {l : Lexeme}
    (h : s.read.1.lexeme = l) (hl : l.kind ∈ kinds)
    (hgood : ∀ h, (f s.read.1 s.read.2 h).Meets good bad) :
    (s.expecting kinds hk f).Meets good bad := by
  apply meets_expecting
  · intro hn
    have hkind : s.read.1.kind = l.kind := congrArg Lexeme.kind h
    exact absurd (hkind ▸ hl) hn
  · intro _
    exact hgood

/-- The mark has to be one of those that mean something. -/
theorem meets_expecting_mark (c : Char) (hc : TokenKind.ofMark c ≠ .error)
    {hk : TokenKind.endOfInput ∉ [TokenKind.ofMark c]}
    {f : Token → (s' : Scanner) → s'.unread.length < s.unread.length → Reading s' α}
    (hbad : s.read.1.lexeme ≠ .mark c → bad s.read.1.unexpected s.read.2)
    (hgood : s.Takes [.mark c] s.read.2 → ∀ h, (f s.read.1 s.read.2 h).Meets good bad) :
    (s.expecting [.ofMark c] hk f).Meets good bad := by
  apply meets_expecting
  · intro hn
    exact hbad fun he => hn (List.mem_singleton.mpr (congrArg Lexeme.kind he))
  · intro hm
    exact hgood (Scanner.takes_mark hc (List.mem_singleton.mp hm))

theorem meets_expecting_word {hk : TokenKind.endOfInput ∉ [TokenKind.identifier]}
    {f : Token → (s' : Scanner) → s'.unread.length < s.unread.length → Reading s' α}
    (hbad : s.read.1.kind ≠ .identifier → bad s.read.1.unexpected s.read.2)
    (hgood : s.Takes [.word s.read.1.text] s.read.2 →
      ∀ h, (f s.read.1 s.read.2 h).Meets good bad) :
    (s.expecting [.identifier] hk f).Meets good bad := by
  apply meets_expecting
  · intro hn
    exact hbad fun he => hn (List.mem_singleton.mpr he)
  · intro hm
    exact hgood (Scanner.takes_word (List.mem_singleton.mp hm))

theorem Meets.mono {good' : α → Scanner → Prop} {bad' : Fault → Scanner → Prop} {r : Reading s α}
    (h : r.Meets good bad) (hgood : ∀ a stop, good a stop → good' a stop)
    (hbad : ∀ e stop, bad e stop → bad' e stop) : r.Meets good' bad' := by
  unfold Meets at h ⊢
  split <;> rename_i hr <;> rw [hr] at h
  · exact hgood _ _ h
  · exact hbad _ _ h

def Yields (r : Reading s α) (a : α) (stop : Scanner) : Prop :=
  r.Meets (fun b s' => b = a ∧ s' = stop) fun _ _ => False

def Fails (r : Reading s α) (e : Fault) (stop : Scanner) : Prop :=
  r.Meets (fun _ _ => False) fun e' s' => e' = e ∧ s' = stop

theorem Yields.meets {a : α} {stop : Scanner} {r : Reading s α} (h : Yields r a stop)
    (hgood : good a stop) : r.Meets good bad := by
  refine h.mono ?_ fun _ _ hf => hf.elim
  rintro _ _ ⟨rfl, rfl⟩
  exact hgood

theorem Fails.meets {e : Fault} {stop : Scanner} {r : Reading s α} (h : Fails r e stop)
    (hbad : bad e stop) : r.Meets good bad := by
  refine h.mono (fun _ _ hf => hf.elim) ?_
  rintro _ _ ⟨rfl, rfl⟩
  exact hbad

theorem Yields.andThen {b : β} {stop : Scanner} {r : Reading s β} (hr : Yields r b stop)
    {f : β → (s' : Scanner) → s'.unread.length ≤ s.unread.length → Reading s' α}
    (h : ∀ hle, (f b stop hle).Meets good bad) : (r.andThen f).Meets good bad :=
  meets_andThen.mpr (hr.meets h)

theorem Fails.andThen {e : Fault} {stop : Scanner} {r : Reading s β} (hr : Fails r e stop)
    {f : β → (s' : Scanner) → s'.unread.length ≤ s.unread.length → Reading s' α}
    (h : bad e stop) : (r.andThen f).Meets good bad :=
  meets_andThen.mpr (hr.meets h)

theorem Meets.yields_or_fails {r : Reading s α} (h : r.Meets good bad) :
    (∃ a, Yields r a r.stop ∧ good a r.stop) ∨ (∃ e, Fails r e r.stop ∧ bad e r.stop) := by
  unfold Yields Fails
  unfold Meets at h ⊢
  split at h
  · exact .inl ⟨_, ⟨rfl, rfl⟩, h⟩
  · exact .inr ⟨_, ⟨rfl, rfl⟩, h⟩

theorem Yields.result {a : α} {stop : Scanner} {r : Reading s α} (h : Yields r a stop) :
    r.result = .ok a ∧ r.stop = stop := by
  unfold Yields Meets at h
  split at h
  · rename_i hr
    exact ⟨h.1 ▸ hr, h.2⟩
  · exact h.elim

theorem Fails.result {e : Fault} {stop : Scanner} {r : Reading s α} (h : Fails r e stop) :
    r.result = .error e ∧ r.stop = stop := by
  unfold Fails Meets at h
  split at h
  · exact h.elim
  · rename_i hr
    exact ⟨h.1 ▸ hr, h.2⟩

end Reading

end ComponentGraph
