import ComponentGraph.Token.Scanner

/-!
# Results of reading

A reading of a scanner is a result together with the scanner where it stopped, which has no more
to read than the first one had. Failed readings stop somewhere too. The combinators hand this
bound on, so that a recursion over readings ends because the text does.
-/

set_option autoImplicit false

namespace ComponentGraph

/-- What reading from `s` gives, and where it stops. -/
structure Reading (s : Scanner) (α : Type) where
  result : Except Fault α
  stop : Scanner
  length_le : stop.unread.length ≤ s.unread.length

namespace Reading

variable {α β : Type}

def done (s : Scanner) (a : α) : Reading s α := ⟨.ok a, s, Nat.le_refl _⟩

def fail (s : Scanner) (e : Fault) : Reading s α := ⟨.error e, s, Nat.le_refl _⟩

def map {s : Scanner} (f : α → β) (r : Reading s α) : Reading s β :=
  ⟨r.result.map f, r.stop, r.length_le⟩

/-- A reading that starts later, taken from an earlier scanner. -/
def weaken {s s' : Scanner} (h : s'.unread.length ≤ s.unread.length) (r : Reading s' α) :
    Reading s α :=
  ⟨r.result, r.stop, Nat.le_trans r.length_le h⟩

def andThen {s : Scanner} (r : Reading s α)
    (f : α → (s' : Scanner) → s'.unread.length ≤ s.unread.length → Reading s' β) :
    Reading s β :=
  match r.result with
  | .ok a => (f a r.stop r.length_le).weaken r.length_le
  | .error e => ⟨.error e, r.stop, r.length_le⟩

end Reading

namespace Scanner

variable {α : Type}

def taking (s : Scanner)
    (f : Token → (s' : Scanner) → s'.unread.length ≤ s.unread.length → Reading s' α) :
    Reading s α :=
  (f s.read.1 s.read.2 s.read_length_le).weaken s.read_length_le

def expecting (s : Scanner) (kinds : List TokenKind) (hk : TokenKind.endOfInput ∉ kinds)
    (f : Token → (s' : Scanner) → s'.unread.length < s.unread.length → Reading s' α) :
    Reading s α :=
  if h : s.read.1.kind ∈ kinds then
    (f s.read.1 s.read.2 (read_length_lt fun he => hk (he ▸ h))).weaken s.read_length_le
  else ⟨.error s.read.1.unexpected, s.read.2, s.read_length_le⟩

end Scanner

end ComponentGraph
