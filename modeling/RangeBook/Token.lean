/-!
# The two tokens of a pool

A pool trades token zero against token one, and its price counts units of token one per unit of
token zero. Most quantities come once per token and are kept as a `TokenPair`. The direction of a
swap is given by the token that is paid in: paying token zero lets the price fall, paying token
one lets it rise.
-/

set_option autoImplicit false
set_option relaxedAutoImplicit false

namespace RangeBook

/-- One of the two tokens of a pool. -/
inductive Token
  | zero
  | one
  deriving DecidableEq, Repr

namespace Token

/-- The token on the other side of a trade. -/
def other : Token → Token
  | zero => one
  | one => zero

@[simp] theorem other_other (token : Token) : token.other.other = token := by
  cases token <;> rfl

theorem eq_other_of_ne {left right : Token} (h : left ≠ right) : left = right.other := by
  cases left <;> cases right <;> simp_all [other]

/-- Whether a price lies strictly past another in the direction of a swap paying this token. -/
def Past : Token → Nat → Nat → Prop
  | zero, price, mark => price < mark
  | one, price, mark => mark < price

instance (token : Token) (price mark : Nat) : Decidable (token.Past price mark) := by
  cases token <;> unfold Past <;> infer_instance

end Token

/-- A value for each of the two tokens. -/
structure TokenPair (α : Type) where
  zero : α
  one : α
  deriving DecidableEq, Repr, Inhabited

namespace TokenPair

variable {α β : Type}

/-- The value that belongs to a token. -/
def get (pair : TokenPair α) : Token → α
  | .zero => pair.zero
  | .one => pair.one

/-- Replaces the value that belongs to a token. -/
def set (pair : TokenPair α) (token : Token) (value : α) : TokenPair α :=
  match token with
  | .zero => { pair with zero := value }
  | .one => { pair with one := value }

/-- The pair with one value at a token and another at the other token. -/
def paired (token : Token) (value counter : α) : TokenPair α :=
  match token with
  | .zero => ⟨value, counter⟩
  | .one => ⟨counter, value⟩

/-- The pair with the same value for both tokens. -/
def both (value : α) : TokenPair α :=
  ⟨value, value⟩

/-- Applies a function to each value. -/
def map (f : α → β) (pair : TokenPair α) : TokenPair β :=
  ⟨f pair.zero, f pair.one⟩

/-- Combines two pairs token by token. -/
def zipWith {γ : Type} (f : α → β → γ) (left : TokenPair α) (right : TokenPair β) : TokenPair γ :=
  ⟨f left.zero right.zero, f left.one right.one⟩

@[ext] theorem ext_get {left right : TokenPair α} (h : ∀ token, left.get token = right.get token) :
    left = right := by
  cases left
  cases right
  have hzero := h .zero
  have hone := h .one
  simp_all [get]

@[simp] theorem get_set_self (pair : TokenPair α) (token : Token) (value : α) :
    (pair.set token value).get token = value := by
  cases token <;> rfl

@[simp] theorem get_set_other (pair : TokenPair α) (token : Token) (value : α) :
    (pair.set token value).get token.other = pair.get token.other := by
  cases token <;> rfl

@[simp] theorem get_paired_self (token : Token) (value counter : α) :
    (TokenPair.paired token value counter).get token = value := by
  cases token <;> rfl

@[simp] theorem get_paired_other (token : Token) (value counter : α) :
    (TokenPair.paired token value counter).get token.other = counter := by
  cases token <;> rfl

@[simp] theorem get_map (f : α → β) (pair : TokenPair α) (token : Token) :
    (pair.map f).get token = f (pair.get token) := by
  cases token <;> rfl

@[simp] theorem get_zipWith {γ : Type} (f : α → β → γ) (left : TokenPair α) (right : TokenPair β)
    (token : Token) : (zipWith f left right).get token = f (left.get token) (right.get token) := by
  cases token <;> rfl

end TokenPair

end RangeBook
