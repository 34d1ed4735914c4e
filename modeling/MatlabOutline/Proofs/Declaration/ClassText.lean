import MatlabOutline.Proofs.Normalize.StubLines
import MatlabOutline.Proofs.Declaration.OpaqueBody

/-!
Class texts with any methods: each a signature line, a blank line, a well nested body and an `end`.
-/

namespace MatlabOutline

/-- A line with these words, any white space between them, and a line end. -/
def IsLine (ws : List (TokenKind × String)) (ts : List Token) : Prop :=
  ∃ front e, ts = front ++ [e] ∧ words front = ws ∧ e.kind = .newline

/-- A text of one line with these words. -/
structure Line (ws : List (TokenKind × String)) where
  text : String
  isLine : IsLine ws (tokenize text)

/-- The words of a signature that declares `name`. -/
inductive SignatureWords (outputs : List String) (name : String) (params : List String) :
    List (TokenKind × String) → Prop
  | mk {outs list : List (TokenKind × String)} : OutputWords outputs outs → ParameterWords params list →
      SignatureWords outputs name params ((.keyword, "function") :: (outs ++ (.nameFunction, name) :: list))

/-- A text of one line that is a signature. -/
structure SignatureLine where
  outputs : List String
  name : String
  params : List String
  text : String
  isSignature : ∃ ws, SignatureWords outputs name params ws ∧ IsLine ws (tokenize text)

/-- Whole lines that are well nested and hold nothing that only a class or a signature has. -/
structure IsBody (ts : List Token) : Prop where
  ended : ts.getLast?.all Token.isNewline = true
  own : ∀ t ∈ ts, t.isForeign = false
  nested : Nested Token.opensBlock ts

/-- A text of whole lines that can be the body of a function. -/
structure BodyText where
  text : String
  isBody : IsBody (tokenize text)
  unbroken : ∀ t ∈ tokenize text, t.isContinuation = false

structure MethodText where
  signature : SignatureLine
  blank : Line []
  body : BodyText
  closing : Line [(.keyword, "end")]

/-- A class with a `methods` block and a `properties` block that holds one bare property. -/
structure ClassText where
  name : String
  property : String
  opening : Line [(.keyword, "classdef"), (.name, name)]
  methodsOpening : Line [(.keyword, "methods")]
  methods : List MethodText
  methodsClosing : Line [(.keyword, "end")]
  propertiesOpening : Line [(.keyword, "properties")]
  propertyLine : Line [(.name, property)]
  propertiesClosing : Line [(.keyword, "end")]
  closing : Line [(.keyword, "end")]
  distinct : (methods.map fun m => MethodDoc.normalName m.signature.name).Nodup

namespace MethodText

def pieces (m : MethodText) : List String :=
  [m.signature.text, m.blank.text, m.body.text, m.closing.text]

/-- What the signature line says of the method. -/
def doc (m : MethodText) (className scope : String) : MethodDoc where
  function :=
    { name := MethodDoc.normalName m.signature.name
      scope := scope
      args := .ofNames m.signature.params
      returns := .ofNames m.signature.outputs }
  className := className

end MethodText

namespace ClassText

def pieces (c : ClassText) : List String :=
  c.opening.text :: c.methodsOpening.text :: (c.methods.flatMap MethodText.pieces ++
    [c.methodsClosing.text, c.propertiesOpening.text, c.propertyLine.text, c.propertiesClosing.text,
      c.closing.text])

def text (c : ClassText) : String :=
  String.join c.pieces

/-- What the lines of the class say of it: one method for each signature, and the property. -/
def doc (c : ClassText) (location : Location) (scope : String) : ClassDoc where
  name := c.name
  scope := scope
  methods := ⟨c.methods.map fun m => (MethodDoc.normalName m.signature.name, m.doc c.name scope)⟩
  properties := ⟨[(c.property, { name := c.property, className := c.name, scope := scope })]⟩
  location := location.withLine 1

end ClassText

theorem Relisted.words_eq {ts us : List Token} (relisted : Relisted ts us)
    (plain : ∀ x ∈ words ts, x.1 ≠ .nameFunction) : words us = words ts := by
  induction relisted with
  | nil => rfl
  | @same t u ts us same _ ih =>
    by_cases blank : t.isWhitespace = true
    · have blank' : u.isWhitespace = true := by
        rwa [Token.isWhitespace, Token.kind_of_segment same]
      rw [words_cons_of_blank blank] at plain ⊢
      rw [words_cons_of_blank blank', ih plain]
    · rw [Bool.not_eq_true] at blank
      have blank' : u.isWhitespace = false := by
        rwa [Token.isWhitespace, Token.kind_of_segment same]
      rw [words_cons blank, List.forall_mem_cons] at plain
      rw [words_cons blank, words_cons blank', ih plain.2, same]
  | @list t u o c ts us same declared _ _ _ _ _ =>
    rw [words_cons (by simp [Token.isWhitespace, declared]), List.forall_mem_cons] at plain
    exact absurd declared plain.1

/-- A line end stays the last token. -/
theorem Relisted.concat_inv {front us : List Token} {e : Token} (relisted : Relisted (front ++ [e]) us)
    (ends : e.kind = .newline) :
    ∃ front' e', us = front' ++ [e'] ∧ Relisted front front' ∧ e'.kind = .newline := by
  obtain ⟨front', last, rfl, first, rest⟩ := relisted.append_inv
  obtain ⟨e', nothing, rfl, same, final⟩ := rest.cons_inv (by simp [ends])
  cases final
  exact ⟨front', e', rfl, first, by rw [Token.kind_of_segment same, ends]⟩

theorem IsLine.relisted {ws : List (TokenKind × String)} {ts us : List Token} (line : IsLine ws ts)
    (plain : ∀ x ∈ ws, x.1 ≠ .nameFunction) (relisted : Relisted ts us) : IsLine ws us := by
  obtain ⟨front, e, rfl, read, ends⟩ := line
  obtain ⟨front', e', rfl, first, ends'⟩ := relisted.concat_inv ends
  exact ⟨front', e', rfl, by rw [first.words_eq (by rwa [read]), read], ends'⟩

theorem words_append_inv {ts : List Token} {xs ys : List (TokenKind × String)}
    (read : words ts = xs ++ ys) :
    ∃ front back, ts = front ++ back ∧ words front = xs ∧ words back = ys := by
  induction xs generalizing ts with
  | nil => exact ⟨[], ts, rfl, rfl, read⟩
  | cons x xs ih =>
    obtain ⟨gap, t, rest, rfl, white, solid, first, further⟩ := words_cons_inv read
    obtain ⟨front, back, rfl, before, behind⟩ := ih further
    refine ⟨gap ++ t :: front, back, by simp, ?_, behind⟩
    have nothing : words gap = [] := by simpa [words] using white
    rw [words_append, nothing, words_cons solid, first, before, List.nil_append]

theorem startsParameters_eq (ts : List Token) :
    startsParameters ts = ((words ts).head? == some (.punctuation, "(")) := by
  induction ts with
  | nil => rfl
  | cons t ts ih =>
    by_cases blank : t.isWhitespace = true
    · rw [words_cons_of_blank blank, ← ih]
      simp [startsParameters, blank]
    · rw [Bool.not_eq_true] at blank
      rw [words_cons blank]
      simp [startsParameters, blank, Token.segment, Token.isPunct, Token.is]
      rfl

theorem IsOutputWord.kind_ne {x : TokenKind × String} (output : IsOutputWord x) :
    x.1 ≠ .nameFunction ∧ x.1 ≠ .newline ∧ x.1 ≠ .comment := by
  rcases output with kind | mark
  · simp [kind]
  · simp only [List.mem_cons, List.not_mem_nil, or_false] at mark
    rcases mark with rfl | rfl | rfl | rfl <;> simp

theorem ParameterNames.kind_ne {ps : List String} {ws : List (TokenKind × String)}
    (params : ParameterNames ps ws) :
    ∀ x ∈ ws, x.1 ≠ .nameFunction ∧ x.1 ≠ .newline ∧ x.1 ≠ .comment := by
  induction params with
  | last param => cases param <;> simp
  | comma param _ ih => cases param <;> simpa using ih

theorem ParameterWords.kind_ne {ps : List String} {ws : List (TokenKind × String)}
    (params : ParameterWords ps ws) :
    ∀ x ∈ ws, x.1 ≠ .nameFunction ∧ x.1 ≠ .newline ∧ x.1 ≠ .comment := by
  cases params with
  | none => simp
  | empty => simp
  | list names => simpa using names.kind_ne

theorem Token.segment_of_isPunct {t : Token} {mark : String} (punct : t.isPunct mark = true) :
    t.segment = (.punctuation, mark) := by
  simp only [isPunct, is, Bool.and_eq_true, beq_iff_eq] at punct
  rw [segment, punct.1, punct.2]

/-- A signature whose parameter list is put in is a signature of the same function. -/
theorem SignatureWords.relisted {outputs params : List String} {name : String} {ts us : List Token}
    (signature : SignatureWords outputs name params (words ts)) (relisted : Relisted ts us) :
    SignatureWords outputs name params (words us) := by
  generalize read : words ts = ws at signature
  obtain @⟨outs, list, outputWords, parameterWords⟩ := signature
  rw [← List.cons_append] at read
  obtain ⟨before, back, rfl, readBefore, readBack⟩ := words_append_inv read
  obtain ⟨gap, n, after, rfl, white, solid, declared, readAfter⟩ := words_cons_inv readBack
  have nothing : words gap = [] := by simpa [words] using white
  have plain : ∀ x ∈ words (before ++ gap), x.1 ≠ .nameFunction := by
    rw [words_append, nothing, readBefore, List.append_nil, List.forall_mem_cons]
    exact ⟨by simp, fun x member => (outputWords.words.1 x member).kind_ne.1⟩
  rw [← List.append_assoc] at relisted
  obtain ⟨first, rest, rfl, relistedFirst, relistedRest⟩ := relisted.append_inv
  have readFirst : words first = (.keyword, "function") :: outs := by
    rw [relistedFirst.words_eq plain, words_append, nothing, readBefore, List.append_nil]
  have final {us : List Token} (relistedLast : Relisted after us) : words us = list := by
    rw [relistedLast.words_eq (by rw [readAfter]; exact fun x member => (parameterWords.kind_ne x member).1), readAfter]
  have read_declared {u : Token} (same : u.segment = n.segment) (ts : List Token) :
      words (first ++ u :: ts) = (.keyword, "function") :: (outs ++ (.nameFunction, name) :: words ts) := by
    rw [words_append, readFirst, words_cons (by rwa [Token.isWhitespace, Token.kind_of_segment same]),
      same, declared, List.cons_append]
  rcases relistedRest with
    _ | @⟨_, u, _, _, same, relistedLast⟩ | @⟨_, u, o, c, _, _, same, _, lacks, opens, closes, relistedLast⟩
  · rw [read_declared same, final relistedLast]
    exact .mk outputWords parameterWords
  · -- A list is put in only where the signature has none.
    have none : list = [] := by
      rw [startsParameters_eq, readAfter] at lacks
      cases parameterWords with
      | none => rfl
      | empty => simp at lacks
      | list names => simp at lacks
    subst none
    cases parameterWords
    have opening := Token.segment_of_isPunct opens
    have closing := Token.segment_of_isPunct closes
    rw [read_declared same, words_cons (by simp [Token.isWhitespace, (Prod.mk.inj opening).1]), opening,
      words_cons (by simp [Token.isWhitespace, (Prod.mk.inj closing).1]), closing, final relistedLast]
    exact .mk outputWords .empty

theorem Relisted.mem {ts us : List Token} (relisted : Relisted ts us) {u : Token} (member : u ∈ us) :
    (∃ t ∈ ts, u.segment = t.segment) ∨ u.kind = .punctuation := by
  induction relisted with
  | nil => simp at member
  | @same t v ts us same _ ih =>
    rcases List.mem_cons.mp member with rfl | later
    · exact .inl ⟨t, by simp, same⟩
    · exact (ih later).imp_left fun ⟨t, inside, same⟩ => ⟨t, by simp [inside], same⟩
  | @list t v o c ts us same _ _ opens closes _ ih =>
    simp only [List.mem_cons] at member
    rcases member with rfl | rfl | rfl | later
    · exact .inl ⟨t, by simp, same⟩
    · exact .inr (Token.kind_of_isPunct opens)
    · exact .inr (Token.kind_of_isPunct closes)
    · exact (ih later).imp_left fun ⟨t, inside, same⟩ => ⟨t, by simp [inside], same⟩

theorem IsBody.relisted {ts us : List Token} (body : IsBody ts) (relisted : Relisted ts us) :
    IsBody us where
  ended := by
    rcases List.eq_nil_or_concat ts with rfl | ⟨front, e, rfl⟩
    · cases relisted
      rfl
    · rw [List.concat_eq_append] at relisted
      obtain ⟨front', e', rfl, -, ends⟩ := relisted.concat_inv (by simpa [Token.isNewline] using body.ended)
      simp [Token.isNewline, ends]
  own := by
    intro u member
    rcases relisted.mem member with ⟨t, inside, same⟩ | mark
    · have own := body.own t inside
      rwa [Token.isForeign, Token.isKeyword, Token.isKeyword, ← Token.is_of_segment same,
        ← Token.is_of_segment same] at own
    · simp [Token.isForeign, Token.isKeyword, Token.is, mark]
  nested := body.nested.relisted relisted

namespace MethodText

/-- A run of tokens from which the method is read. -/
def Tokens (m : MethodText) (ts : List Token) : Prop :=
  ∃ ws line blank body close, ts = line ++ (blank ++ (body ++ close)) ∧
    SignatureWords m.signature.outputs m.signature.name m.signature.params ws ∧ IsLine ws line ∧
    IsLine [] blank ∧ IsBody body ∧ IsLine [(.keyword, "end")] close

/-- A run of tokens from which the methods are read one by one. -/
inductive AllTokens : List MethodText → List Token → Prop
  | nil : AllTokens [] []
  | cons {m : MethodText} {ms : List MethodText} {ts us : List Token} : m.Tokens ts →
      AllTokens ms us → AllTokens (m :: ms) (ts ++ us)

theorem tokens_relisted (m : MethodText) {us : List Token}
    (relisted : Relisted (m.pieces.map tokenize).flatten us) : m.Tokens us := by
  obtain ⟨ws, signature, isLine⟩ := m.signature.isSignature
  obtain ⟨line, rest, rfl, first, relisted⟩ := Relisted.append_inv relisted
  obtain ⟨blank, rest, rfl, second, relisted⟩ := Relisted.append_inv relisted
  obtain ⟨body, close, rfl, third, fourth⟩ := Relisted.append_inv relisted
  obtain ⟨front, e, cut, rfl, ends⟩ := isLine
  rw [cut] at first
  obtain ⟨front', e', rfl, relistedFront, ends'⟩ := first.concat_inv ends
  refine ⟨_, front' ++ [e'], blank, body, close, rfl, signature.relisted relistedFront, ⟨front', e', rfl, rfl, ends'⟩,
    ?_, ?_, ?_⟩
  · exact m.blank.isLine.relisted (by simp) second
  · exact m.body.isBody.relisted third
  · exact m.closing.isLine.relisted (by simp) (by simpa using fourth)

theorem allTokens_relisted (ms : List MethodText) {us : List Token}
    (relisted : Relisted ((ms.flatMap pieces).map tokenize).flatten us) : AllTokens ms us := by
  induction ms generalizing us with
  | nil =>
    cases relisted
    exact .nil
  | cons m ms ih =>
    rw [List.flatMap_cons, List.map_append, List.flatten_append] at relisted
    obtain ⟨ts, rest, rfl, first, further⟩ := relisted.append_inv
    exact .cons (m.tokens_relisted first) (ih further)

end MethodText

namespace ClassText

/-- A run of tokens from which the class is read. -/
def Tokens (c : ClassText) (ts : List Token) : Prop :=
  ∃ opening methodsOpening methods methodsClosing propertiesOpening property propertiesClosing closing,
    ts = opening ++ (methodsOpening ++ (methods ++ (methodsClosing ++ (propertiesOpening ++
      (property ++ (propertiesClosing ++ closing)))))) ∧
    IsLine [(.keyword, "classdef"), (.name, c.name)] opening ∧
    IsLine [(.keyword, "methods")] methodsOpening ∧
    MethodText.AllTokens c.methods methods ∧
    IsLine [(.keyword, "end")] methodsClosing ∧
    IsLine [(.keyword, "properties")] propertiesOpening ∧
    IsLine [(.name, c.property)] property ∧
    IsLine [(.keyword, "end")] propertiesClosing ∧
    IsLine [(.keyword, "end")] closing

theorem tokens_relisted (c : ClassText) {us : List Token}
    (relisted : Relisted (c.pieces.map tokenize).flatten us) : c.Tokens us := by
  simp only [pieces, List.map_cons, List.map_append, List.map_nil, List.flatten_cons, List.flatten_append,
    List.flatten_nil, List.append_nil] at relisted
  obtain ⟨opening, rest, rfl, first, relisted⟩ := relisted.append_inv
  obtain ⟨methodsOpening, rest, rfl, second, relisted⟩ := relisted.append_inv
  obtain ⟨methods, rest, rfl, third, relisted⟩ := relisted.append_inv
  obtain ⟨methodsClosing, rest, rfl, fourth, relisted⟩ := relisted.append_inv
  obtain ⟨propertiesOpening, rest, rfl, fifth, relisted⟩ := relisted.append_inv
  obtain ⟨property, rest, rfl, sixth, relisted⟩ := relisted.append_inv
  obtain ⟨propertiesClosing, closing, rfl, seventh, last⟩ := relisted.append_inv
  exact ⟨opening, methodsOpening, methods, methodsClosing, propertiesOpening, property,
    propertiesClosing, closing, rfl, c.opening.isLine.relisted (by simp) first,
    c.methodsOpening.isLine.relisted (by simp) second, MethodText.allTokens_relisted c.methods third,
    c.methodsClosing.isLine.relisted (by simp) fourth,
    c.propertiesOpening.isLine.relisted (by simp) fifth, c.propertyLine.isLine.relisted (by simp) sixth,
    c.propertiesClosing.isLine.relisted (by simp) seventh, c.closing.isLine.relisted (by simp) last⟩

end ClassText

end MatlabOutline
