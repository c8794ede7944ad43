import ShaderExpr.Proofs.Printing.Splitting

namespace ShaderExpr

/-- The token that a binary operator is written as. In printed text it has spaces around it, while
    signs and marks have none. -/
def Operator.token : Operator → Token.Kind
  | .mul => .control '*'
  | .div => .control '/'
  | .mod => .control '%'
  | .add => .control '+'
  | .sub => .control '-'
  | .shl => .symbol .shl
  | .shr => .symbol .shr
  | .lt => .control '<'
  | .gt => .control '>'
  | .le => .symbol .le
  | .ge => .symbol .ge
  | .eq => .symbol .eq
  | .ne => .symbol .ne
  | .bitAnd => .control '&'
  | .bitXor => .control '^'
  | .bitOr => .control '|'
  | .and => .symbol .and
  | .xor => .symbol .xor
  | .or => .symbol .or

theorem Operator.operator?_token (op : Operator) : op.token.operator? = some op := by
  cases op <;> rfl

/-- The token that an assignment is written as. There is none for operators that are only binary,
    which stand for the plain assignment here. -/
def assignmentToken : Option Operator → Token.Kind
  | some .shl => .symbol .shlAssign
  | some .shr => .symbol .shrAssign
  | some .mul => .symbol .mulAssign
  | some .div => .symbol .divAssign
  | some .mod => .symbol .modAssign
  | some .add => .symbol .addAssign
  | some .sub => .symbol .subAssign
  | some .bitAnd => .symbol .andAssign
  | some .bitXor => .symbol .xorAssign
  | some .bitOr => .symbol .orAssign
  | _ => .control '='

theorem eq_assignmentToken {k : Token.Kind} {op : Option Operator} (h : k.assignment? = some op) :
    k = assignmentToken op := by
  unfold Token.Kind.assignment? at h
  split at h
  · obtain rfl : none = op := by simpa using h
    rfl
  · rename_i s
    cases s <;> simp [Symbol.assigned?] at h <;> rw [← h] <;> rfl
  · simp at h

/-- The text goes on with a space. -/
def StartsSpaced (rest : List Char) : Prop := ∃ text, rest = ' ' :: text

theorem Operator.renders (op : Operator) : Renders op.text.toList [op.token] StartsSpaced := by
  cases op <;> exact .token (by rintro rest ⟨text, rfl⟩; rfl) (by decide) rfl

theorem renders_assignment {k : Token.Kind} {op : Option Operator} (h : k.assignment? = some op) :
    Renders (op.elim "" Operator.text ++ "=").toList [assignmentToken op] StartsSpaced := by
  obtain rfl := eq_assignmentToken h
  rcases op with _ | op
  · exact .token (by rintro rest ⟨text, rfl⟩; rfl) (by decide) rfl
  · cases op <;> first
      | exact .token (by rintro rest ⟨text, rfl⟩; rfl) (by decide) rfl
      | simp [assignmentToken, Token.Kind.assignment?] at h

/-- Marks that start no longer token. -/
theorem renders_mark {c : Char} (h : c ∈ ['(', ')', ',', ';', '\x7b', '\x7d']) :
    Renders [c] [.control c] fun _ => True := by
  simp only [List.mem_cons, List.not_mem_nil, or_false] at h
  rcases h with rfl | rfl | rfl | rfl | rfl | rfl <;> exact .token (fun rest _ => rfl) (by decide) rfl

/-- A point that no digit follows is no number. -/
theorem renders_point : Renders ['.'] [.control '.'] fun rest =>
    ∀ c ∈ rest.head?, isDecimalDigit c = false := by
  refine .token (fun rest hrest => ?_) (by decide) rfl
  have hfloat : Literal.float? ('.' :: rest) = none := by
    have hrun : Literal.digitRun rest = 0 := by
      cases rest with
      | nil => rfl
      | cons c rest => simp [Literal.digitRun, hrest c (by simp)]
    have hsize : Literal.floatSize ('.' :: rest) = 0 := by
      change (if Literal.digitRun ('.' :: rest) = 0 ∧ Literal.digitRun rest = 0 then 0 else _) = 0
      exact if_pos ⟨rfl, hrun⟩
    simp [Literal.float?, hsize]
  have hliteral : Lexeme.literal? ('.' :: rest) = none := by
    unfold Lexeme.literal?
    rw [hfloat]
    rfl
  unfold Lexeme.first?
  rw [List.singleton_append, hliteral]
  rfl

/-- A minus sign in front of anything that does not make another token of it. -/
theorem renders_minus : Renders ['-'] [.control '-'] fun rest =>
    ∀ c ∈ rest.head?, c ≠ '-' ∧ c ≠ '=' := by
  refine .token (fun rest hrest => ?_) (by decide) rfl
  have hsymbol : Lexeme.symbol? ('-' :: rest) = none := by
    have hnone : (Symbol.all.find? fun s => s.text.toList.isPrefixOf ('-' :: rest)) = none := by
      rw [List.find?_eq_none]
      intro s _ hfront
      cases rest with
      | nil => cases s <;> exact absurd hfront (by decide)
      | cons c rest =>
        obtain ⟨hminus, hequal⟩ := hrest c (by simp)
        cases s <;> simp [Symbol.text] at hfront
        · exact hequal hfront.symm
        · exact hminus hfront.symm
    simp [Lexeme.symbol?, hnone]
  unfold Lexeme.first?
  rw [List.singleton_append, hsymbol]
  rfl

end ShaderExpr
