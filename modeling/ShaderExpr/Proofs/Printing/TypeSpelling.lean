import ShaderExpr.Proofs.Grammar.TypeSoundness
import ShaderExpr.Proofs.Printing.Punctuation

namespace ShaderExpr

namespace Ty

mutual
/-- Kinds of the tokens that a type is printed as. -/
def kinds : Ty → Phrase.Kinds
  | .struct (some name) _ => [.ident name]
  | .struct none members =>
    .keyword "struct" :: .control '\x7b' :: (memberKinds members ++ [.control '\x7d'])
  | ty => [.keyword ty.text]
def memberKinds : List (String × Ty) → Phrase.Kinds
  | [] => []
  | (name, ty) :: rest => ty.kinds ++ (.ident name :: .control ';' :: memberKinds rest)
end

mutual
/-- A type that can be written down in a scope: a word of the language, a name, or a definition for
    a struct without a name. -/
def Written (s : Scope) : Ty → Prop
  | .struct (some name) members =>
    IsIdentifier name ∧ s.typeNamed name = some (.struct (some name) members)
  | .struct none members => (members.map (·.1)).Nodup ∧ MembersWritten s members
  | ty => ofWord? ty.text = some ty ∧ ty.text ∈ Token.keywords
def MembersWritten (s : Scope) : List (String × Ty) → Prop
  | [] => True
  | (name, ty) :: rest =>
    IsIdentifier name ∧ (ty.isBasic || ty.isStruct) ∧ ty.Written s ∧ MembersWritten s rest
end

/-- What a word names can be written as a word. -/
theorem written_of_ofWord? {word : String} {ty : Ty} (h : ofWord? word = some ty) (s : Scope) :
    ty.Written s := by
  have hall : ∀ p ∈ builtins, ofWord? p.2.text = some p.2 ∧ p.2.text ∈ Token.keywords ∧
      p.2.isStruct = false := by
    decide +kernel
  obtain ⟨p, hp, rfl⟩ := Option.map_eq_some_iff.mp h
  obtain ⟨hword, hkeyword, hstruct⟩ := hall p (List.mem_of_find?_eq_some hp)
  cases hty : p.2 with
  | struct name members =>
    rw [hty] at hstruct
    simp [isStruct] at hstruct
  | _ =>
    rw [hty] at hword hkeyword
    exact ⟨hword, hkeyword⟩

theorem membersWritten_append {s : Scope} {ms ns : List (String × Ty)} :
    MembersWritten s (ms ++ ns) ↔ MembersWritten s ms ∧ MembersWritten s ns := by
  induction ms with
  | nil => simp [MembersWritten]
  | cons m ms ih =>
    obtain ⟨name, ty⟩ := m
    rw [List.cons_append, MembersWritten, MembersWritten, ih]
    tauto

theorem membersWritten_map {s : Scope} {ty : Ty} {names : List String}
    (hnames : ∀ n ∈ names, IsIdentifier n) (holds : ty.isBasic || ty.isStruct)
    (hty : ty.Written s) : MembersWritten s (names.map (·, ty)) := by
  induction names with
  | nil => trivial
  | cons n names ih =>
    exact ⟨hnames n (by simp), holds, hty, ih fun m hm => hnames m (by simp [hm])⟩

/-- A text without a word at its end. -/
theorem endsWord_cons {c : Char} (h : Lexeme.isIdentPart c = false) (text : List Char) :
    EndsWord (c :: text) := by
  intro d hd
  obtain rfl : c = d := by simpa using hd
  exact h

mutual
theorem Written.renders {s : Scope} : ∀ {ty : Ty}, ty.Written s →
    Renders ty.text.toList ty.kinds EndsWord
  | .struct (some _) _, h => h.1.renders
  | .struct none members, h => by
    have hmembers := MembersWritten.renders h.2
    have htext : (Ty.struct none members).text.toList = "struct".toList ++ ([' '] ++ (['\x7b'] ++
        ([' '] ++ ((membersText members).toList ++ ['\x7d'])))) := by
      simp [text]
    have hopen : Renders ['\x7b'] [.control '\x7b'] fun _ => True := renders_mark (by simp)
    have hclose : Renders ['\x7d'] [.control '\x7d'] fun _ => True := renders_mark (by simp)
    have hbody := hmembers.append hclose fun _ _ => trivial
    have hbraces := hopen.append (Renders.space.append hbody fun _ _ => trivial) fun _ _ => trivial
    have hword : Renders "struct".toList [.keyword "struct"] EndsWord :=
      renders_keyword (by decide +kernel)
    rw [htext]
    refine ((hword.append (Renders.space.append hbraces fun _ _ => trivial) fun rest _ => ?_).mono
      fun _ _ => trivial)
    exact endsWord_cons (by decide) _
  | .void, h | .scalar _, h | .vector .., h | .matrix .., h => renders_keyword h.2
theorem MembersWritten.renders {s : Scope} : ∀ {members : List (String × Ty)},
    MembersWritten s members → Renders (membersText members).toList (memberKinds members)
      fun _ => True
  | [], _ => fun _ _ _ h => h
  | (name, ty) :: rest, h => by
    obtain ⟨hname, -, hty, hrest⟩ := h
    have htext : (membersText ((name, ty) :: rest)).toList = ty.text.toList ++ ([' '] ++
        (name.toList ++ ([';'] ++ ([' '] ++ (membersText rest).toList)))) := by
      simp [membersText]
    have hsemicolon : Renders [';'] [.control ';'] fun _ => True := renders_mark (by simp)
    have hbehind := hsemicolon.append (Renders.space.append (MembersWritten.renders hrest)
      fun _ _ => trivial) fun _ _ => trivial
    have hmember := hname.renders.append hbehind fun _ _ => endsWord_cons (by decide) _
    rw [htext]
    exact hty.renders.append (Renders.space.append hmember fun _ _ => trivial)
      fun _ _ => endsWord_cons (by decide) _
end

mutual
/-- The printed tokens of a type specify it, and name nothing new. -/
theorem Written.specifier {s : Scope} : ∀ {ty : Ty}, ty.Written s →
    Phrase.Specifier s ty.kinds ty s
  | .struct (some _) _, h => .name h.2
  | .struct none members, h =>
    .definition (.anonymous (MembersWritten.members h.2 [] (by simpa using h.1)))
  | .void, h | .scalar _, h | .vector .., h | .matrix .., h => .word h.1
theorem MembersWritten.members {s : Scope} : ∀ {members : List (String × Ty)},
    MembersWritten s members → ∀ found : List (String × Ty),
      ((found ++ members).map (·.1)).Nodup →
      Phrase.Members s found (memberKinds members) (found ++ members) s
  | [], _ => fun found _ => by
    rw [List.append_nil]
    exact .done
  | (name, ty) :: rest, h => by
    intro found hnodup
    obtain ⟨-, holds, hty, hrest⟩ := h
    rw [List.append_cons] at hnodup ⊢
    have hfresh : name ∉ found.map (·.1) := by
      simp only [List.map_append, List.append_assoc, List.map_cons, List.singleton_append] at hnodup
      intro hin
      exact (List.nodup_append.mp hnodup).2.2 name hin name (by simp) rfl
    refine .more hty.specifier holds (.one name) (by simp) (by simpa using hfresh) ?_
    exact MembersWritten.members hrest _ hnodup
end

end Ty

end ShaderExpr
