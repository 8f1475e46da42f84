import Mathlib.Data.Nat.Digits.Defs
import Mathlib.Data.List.Forall2
import Symex.Proofs.Fault
import Symex.Smt.Response

namespace Symex.Smt

/-! ## Texts -/

/-- How a word is written: as it is, between bars that belong to it, or between quotation marks that do not. -/
inductive Spells : String → List Char → Prop
  | bare {c : Char} {cs : List Char} (hc : c ≠ '|' ∧ c ≠ '"')
      (h : ∀ d ∈ c :: cs, isBlank d = false ∧ d ≠ '(' ∧ d ≠ ')') : Spells (.ofList (c :: cs)) (c :: cs)
  | barred {cs : List Char} (h : '|' ∉ cs) : Spells (.ofList ('|' :: (cs ++ ['|']))) ('|' :: (cs ++ ['|']))
  | marked {cs : List Char} (h : '"' ∉ cs) : Spells (.ofList cs) ('"' :: (cs ++ ['"']))

theorem Spells.of_all {c : Char} {cs : List Char} (hc : c ≠ '|' ∧ c ≠ '"')
    (h : (c :: cs).all fun d ↦ isBlank d = false ∧ d ≠ '(' ∧ d ≠ ')') : Spells (.ofList (c :: cs)) (c :: cs) :=
  .bare hc fun d hd ↦ of_decide_eq_true (List.all_eq_true.1 h d hd)

def Parted (text : List Char) : Prop := ∀ c ∈ text.head?, isBlank c = true ∨ c = '(' ∨ c = ')'

theorem parted_cons {c : Char} {text : List Char} (h : isBlank c = true ∨ c = '(' ∨ c = ')') :
    Parted (c :: text) := by
  intro d hd
  obtain rfl := Option.some.inj hd
  exact h

/-- The pieces are written with blanks anywhere between them, and with at least one between two words. -/
inductive Written : List Token → List Char → Prop
  | nil : Written [] []
  | blank {tokens : List Token} {text : List Char} {c : Char} (hc : isBlank c = true)
      (h : Written tokens text) : Written tokens (c :: text)
  | opening {tokens : List Token} {text : List Char} (h : Written tokens text) :
      Written (.opening :: tokens) ('(' :: text)
  | closing {tokens : List Token} {text : List Char} (h : Written tokens text) :
      Written (.closing :: tokens) (')' :: text)
  | word {tokens : List Token} {text cs : List Char} {s : String} (hs : Spells s cs) (hp : Parted text)
      (h : Written tokens text) : Written (.atom s :: tokens) (cs ++ text)

namespace Token

variable {c : Char} {cs text word : List Char}

attribute [local simp] scan start

theorem scan_blank (hc : isBlank c = true) : scan .none word (c :: text) = scan .none [] text := by
  have hopening : c ≠ '(' := by
    rintro rfl
    exact absurd hc (by decide)
  have hclosing : c ≠ ')' := by
    rintro rfl
    exact absurd hc (by decide)
  have hbar : c ≠ '|' := by
    rintro rfl
    exact absurd hc (by decide)
  have hmark : c ≠ '"' := by
    rintro rfl
    exact absurd hc (by decide)
  simp [scan, start, hopening, hclosing, hbar, hmark, hc]

theorem scan_bare (h : ∀ d ∈ cs, isBlank d = false ∧ d ≠ '(' ∧ d ≠ ')') (hp : Parted text) :
    scan .bare word (cs ++ text) = ofReversed (cs.reverse ++ word) :: scan .none [] text := by
  induction cs generalizing word with
  | nil =>
    cases text with
    | nil => rfl
    | cons c text =>
      have hc := hp c rfl
      simp [scan, hc, or_assoc]
  | cons d cs ih =>
    rw [List.forall_mem_cons] at h
    obtain ⟨⟨hblank, hopening, hclosing⟩, h⟩ := h
    simp [scan, hblank, hopening, hclosing, ih h]

theorem scan_quoted (h : '|' ∉ cs) :
    scan .quoted word (cs ++ '|' :: text) = ofReversed ('|' :: (cs.reverse ++ word)) :: scan .none [] text := by
  induction cs generalizing word with
  | nil => simp [scan]
  | cons d cs ih =>
    rw [List.mem_cons, not_or] at h
    simp [scan, Ne.symm h.1, ih h.2]

theorem scan_text (h : '"' ∉ cs) :
    scan .text word (cs ++ '"' :: text) = ofReversed (cs.reverse ++ word) :: scan .none [] text := by
  induction cs generalizing word with
  | nil => simp [scan]
  | cons d cs ih =>
    rw [List.mem_cons, not_or] at h
    simp [scan, Ne.symm h.1, ih h.2]

theorem scan_spelled {s : String} (hs : Spells s cs) (hp : Parted text) :
    scan .none word (cs ++ text) = .atom s :: scan .none [] text := by
  cases hs with
  | bare hc h =>
    rename_i c cs
    have hall := List.forall_mem_cons.1 h
    obtain ⟨⟨hblank, hopening, hclosing⟩, hrest⟩ := hall
    rw [List.cons_append, scan]
    simp [start, hopening, hclosing, hc, hblank, scan_bare hrest hp, ofReversed]
  | barred h =>
    rw [List.cons_append, List.append_assoc, List.singleton_append, scan]
    simp [start, scan_quoted h, ofReversed]
  | marked h =>
    rw [List.cons_append, List.append_assoc, List.singleton_append, scan]
    simp [start, scan_text h, ofReversed]

theorem scan_written {tokens : List Token} (h : Written tokens text) : scan .none [] text = tokens := by
  induction h with
  | nil => rfl
  | blank hc _ ih => rw [scan_blank hc, ih]
  | opening _ ih => simp [scan, start, ih]
  | closing _ ih => simp [scan, start, ih]
  | word hs hp _ ih => rw [scan_spelled hs hp, ih]

end Token

/-! ## Trees -/

namespace SExpr

mutual

def tokens : SExpr → List Token
  | .atom s => [.atom s]
  | .list items => .opening :: (tokensAll items ++ [.closing])

def tokensAll : List SExpr → List Token
  | [] => []
  | e :: rest => e.tokens ++ tokensAll rest

end

attribute [local simp] tokens tokensAll build

theorem tokensAll_append (es es' : List SExpr) : tokensAll (es ++ es') = tokensAll es ++ tokensAll es' := by
  induction es with
  | nil => rfl
  | cons e es ih => simp [tokensAll, ih]

@[simp] theorem tokensAll_singleton (e : SExpr) : tokensAll [e] = e.tokens := List.append_nil _

mutual

theorem build_tokens (e : SExpr) (top : List SExpr) (stack : List (List SExpr)) (rest : List Token) :
    build (top :: stack) (e.tokens ++ rest) = build ((e :: top) :: stack) rest := by
  match e with
  | .atom s => rfl
  | .list items =>
    rw [tokens, List.cons_append, List.append_assoc, build, build_tokensAll]
    simp [build]

theorem build_tokensAll (es : List SExpr) (top : List SExpr) (stack : List (List SExpr)) (rest : List Token) :
    build (top :: stack) (tokensAll es ++ rest) = build ((es.reverse ++ top) :: stack) rest := by
  match es with
  | [] => rfl
  | e :: es =>
    rw [tokensAll, List.append_assoc, build_tokens, build_tokensAll]
    simp

end

/-- The pieces that were read onto lists, of which those above the lowest one are open. -/
def pieces : List (List SExpr) → List Token
  | [] => []
  | [bottom] => tokensAll bottom.reverse
  | top :: stack => pieces stack ++ .opening :: tokensAll top.reverse

theorem pieces_push {stack : List (List SExpr)} (e : SExpr) (top : List SExpr) :
    pieces ((e :: top) :: stack) = pieces (top :: stack) ++ e.tokens := by
  cases stack with
  | nil => simp [pieces, tokensAll_append]
  | cons outer stack => simp [pieces, tokensAll_append]

theorem pieces_of_build {stack stack' : List (List SExpr)} {ts : List Token} (hne : stack ≠ [])
    (h : build stack ts = some stack') : pieces stack' = pieces stack ++ ts := by
  fun_induction build stack ts with
  | case1 stack =>
    obtain rfl := Option.some.inj h
    exact (List.append_nil _).symm
  | case2 stack rest ih =>
    rw [ih (List.cons_ne_nil _ _) h]
    cases stack with
    | nil => exact absurd rfl hne
    | cons top stack => simp [pieces, tokensAll]
  | case3 inner outer stack rest ih =>
    rw [ih (List.cons_ne_nil _ _) h, pieces_push]
    simp [pieces, tokens]
  | case4 => cases h
  | case5 top stack s rest ih =>
    rw [ih (List.cons_ne_nil _ _) h, pieces_push]
    simp [tokens]
  | case6 => cases h

theorem build_eq_some_iff {ts : List Token} {top : List SExpr} :
    build [[]] ts = some [top] ↔ ts = tokensAll top.reverse := by
  constructor
  · intro h
    exact (pieces_of_build (List.cons_ne_nil _ _) h).symm
  · rintro rfl
    have h := build_tokensAll top.reverse [] [] []
    simpa [build] using h

/-! ## Parentheses -/

/-- Nothing is closed that is not open, and nothing is left open. -/
structure Balanced (ts : List Token) : Prop where
  count_le : ∀ n, (ts.take n).count .closing ≤ (ts.take n).count .opening
  count_eq : ts.count .closing = ts.count .opening

theorem Balanced.append {ts ts' : List Token} (h : Balanced ts) (h' : Balanced ts') : Balanced (ts ++ ts') where
  count_le n := by
    rw [List.take_append, List.count_append, List.count_append]
    exact Nat.add_le_add (h.count_le n) (h'.count_le _)
  count_eq := by rw [List.count_append, List.count_append, h.count_eq, h'.count_eq]

theorem Balanced.list {ts : List Token} (h : Balanced ts) : Balanced (.opening :: (ts ++ [.closing])) where
  count_le n := by
    cases n with
    | zero => exact Nat.le_refl _
    | succ n =>
      have hn := h.count_le n
      have hlast : ([Token.closing].take (n - ts.length)).count .closing ≤ 1 :=
        List.count_le_length.trans (List.length_take_le' _ _)
      rw [List.take_succ_cons, List.take_append, List.count_cons_self, List.count_cons_of_ne (by decide),
        List.count_append, List.count_append]
      omega
  count_eq := by
    have heq := h.count_eq
    simp [heq]

mutual

theorem balanced_tokens (e : SExpr) : Balanced e.tokens := by
  match e with
  | .atom s =>
    refine ⟨fun n ↦ ?_, rfl⟩
    cases n with
    | zero => exact Nat.le_refl _
    | succ n => simp [tokens]
  | .list items => exact (balanced_tokensAll items).list

theorem balanced_tokensAll (es : List SExpr) : Balanced (tokensAll es) := by
  match es with
  | [] => exact ⟨fun n ↦ by simp [tokensAll], rfl⟩
  | e :: es => exact (balanced_tokens e).append (balanced_tokensAll es)

end

/-! ## Readings -/

theorem parse_eq_ok_iff {s : String} {e : SExpr} : parse s = .ok e ↔ Token.ofText s = e.tokens := by
  have hbuild : build [[]] (Token.ofText s) = some [[e]] ↔ Token.ofText s = e.tokens := by
    rw [build_eq_some_iff]
    simp
  rw [← hbuild, parse]
  split
  · rename_i e' h
    simp [h]
  · rename_i top hne h
    simp only [reduceCtorEq, false_iff]
    intro h'
    obtain rfl := List.singleton_inj.1 (Option.some.inj (h.symm.trans h'))
    exact hne e rfl
  · rename_i hne _
    simp only [reduceCtorEq, false_iff]
    exact hne e

theorem parse_of_unbalanced {s : String} (h : ¬Balanced (Token.ofText s)) :
    parse s = .error (.response s "unbalanced parentheses") := by
  have hopen : ∀ top, build [[]] (Token.ofText s) ≠ some [top] := by
    intro top heq
    refine h ?_
    rw [build_eq_some_iff.1 heq]
    exact balanced_tokensAll _
  rw [parse]
  split
  · rename_i e heq
    exact absurd heq (hopen _)
  · rename_i top _ heq
    exact absurd heq (hopen _)
  · rfl

theorem parse_of_length_ne_one {s : String} {es : List SExpr} (h : Token.ofText s = tokensAll es)
    (hlength : es.length ≠ 1) : parse s = .error (.response s "expected a single expression") := by
  have hbuild : build [[]] (Token.ofText s) = some [es.reverse] := by
    rw [build_eq_some_iff, List.reverse_reverse, h]
  rw [parse, hbuild]
  split
  · rename_i e heq
    have hone := congrArg List.length (List.singleton_inj.1 (Option.some.inj heq))
    rw [List.length_reverse] at hone
    exact absurd hone hlength
  · rfl
  · rename_i hne
    exact absurd rfl (hne es.reverse)

/-! ## Numerals -/

/-- The character stands for the digit, in lower or in upper case. -/
def Denotes (d : Nat) (c : Char) : Prop := c = d.digitChar ∨ c = d.digitChar.toUpper

/-- The characters are the digits of `n`, of which the first ones may be zero. -/
def Numeral (radix n : Nat) (cs : List Char) : Prop :=
  ∃ ds : List Nat, ds ≠ [] ∧ (∀ d ∈ ds, d < radix) ∧ Nat.ofDigits radix ds = n ∧ List.Forall₂ Denotes ds cs.reverse

variable {radix n : Nat} {cs : List Char}

theorem Denotes.digit?_eq {d : Nat} {c : Char} (h : Denotes d c) (hd : d < 16) : digit? c = some d := by
  have hall : ∀ d < 16, digit? d.digitChar = some d ∧ digit? d.digitChar.toUpper = some d := by decide
  rcases h with rfl | rfl
  · exact (hall d hd).1
  · exact (hall d hd).2

theorem foldlM_digits {ds : List Nat} {rs : List Char} (hradix : radix ≤ 16) (hds : ∀ d ∈ ds, d < radix)
    (h : List.Forall₂ Denotes ds rs) :
    rs.reverse.foldlM (fun n c ↦ do
      let d ← digit? c
      guard (d < radix)
      return n * radix + d) 0 = some (Nat.ofDigits radix ds) := by
  induction h with
  | nil => rfl
  | cons hd _ ih =>
    rw [List.forall_mem_cons] at hds
    rw [List.reverse_cons, List.foldlM_append, ih hds.2, Nat.ofDigits_cons]
    simp [hd.digit?_eq (hds.1.trans_le hradix), guard, hds.1, Nat.mul_comm, Nat.add_comm]

theorem Numeral.numeral?_eq (h : Numeral radix n cs) (hradix : radix ≤ 16) (hn : n < wordLimit) :
    numeral? radix cs = some n := by
  obtain ⟨ds, hne, hds, rfl, hspell⟩ := h
  have hfold := foldlM_digits hradix hds hspell
  rw [List.reverse_reverse] at hfold
  cases cs with
  | nil =>
    cases hspell
    exact absurd rfl hne
  | cons c cs =>
    -- a sign is no digit
    have hsign : c ≠ '+' := by
      rintro rfl
      rw [List.foldlM_cons] at hfold
      cases hfold
    have hlt : Nat.ofDigits radix ds < pow2 64 := hn
    unfold numeral?
    split
    · rename_i heq
      exact absurd (List.cons.inj heq).1 hsign
    · dsimp only
      rw [hfold]
      simp [guard, hlt]

/-! ## Values -/

/-- The ways to write a word. -/
inductive Literal (n : Nat) : SExpr → Prop
  | binary {cs : List Char} (h : Numeral 2 n cs) : Literal n (.atom (.ofList ('#' :: 'b' :: cs)))
  | hexadecimal {cs : List Char} (h : Numeral 16 n cs) : Literal n (.atom (.ofList ('#' :: 'x' :: cs)))
  | indexed {cs : List Char} (h : Numeral 10 n cs) (width : String) :
      Literal n (.list [.atom "_", .atom (.ofList ('b' :: 'v' :: cs)), .atom width])

theorem Literal.bits?_eq {e : SExpr} (h : Literal n e) (hn : n < wordLimit) : e.bits? = some n := by
  cases h with
  | binary h =>
    rw [bits?, String.toList_ofList]
    exact h.numeral?_eq (by decide) hn
  | hexadecimal h =>
    rw [bits?, String.toList_ofList]
    exact h.numeral?_eq (by decide) hn
  | indexed h width =>
    rw [bits?, String.toList_ofList]
    exact h.numeral?_eq (by decide) hn

/-- A term and a literal that stands for its value. -/
structure Binding where
  term : SExpr
  literal : SExpr
  value : Nat
  isLiteral : Literal value literal
  value_lt : value < wordLimit

namespace Binding

def pair (b : Binding) : SExpr := .list [b.term, b.literal]

theorem mapM_boundValue (s : String) (bs : List Binding) :
    (bs.map pair).mapM (boundValue s) = .ok (bs.map value) := by
  induction bs with
  | nil => rfl
  | cons b bs ih =>
    have hb : boundValue s b.pair = .ok b.value := by
      simp only [pair, boundValue, b.isLiteral.bits?_eq b.value_lt]
    rw [List.map_cons, List.mapM_cons, hb, ih]
    rfl

end Binding

theorem parseValues_eq {s : String} {bs : List Binding} (h : parse s = .ok (.list (bs.map Binding.pair))) :
    parseValues s = .ok (bs.map Binding.value) := by
  rw [parseValues, h]
  exact Binding.mapM_boundValue s bs

/-- A text is read as the tree that it was written for. It is refused if it was written for no tree, be it that
parentheses do not match or that there is none or more than one. From an answer to a question for values these
are read in order, whatever form they have. -/
theorem parse_of_written {ts : List Token} {text : List Char} (h : Written ts text) :
    (∀ e, parse (.ofList text) = .ok e ↔ ts = e.tokens) ∧
    (¬Balanced ts → parse (.ofList text) = .error (.response (.ofList text) "unbalanced parentheses")) ∧
    (∀ es, ts = tokensAll es → es.length ≠ 1 →
      parse (.ofList text) = .error (.response (.ofList text) "expected a single expression")) ∧
    ∀ bs : List Binding, ts = (SExpr.list (bs.map Binding.pair)).tokens →
      parseValues (.ofList text) = .ok (bs.map Binding.value) := by
  have hts : Token.ofText (.ofList text) = ts := by
    rw [Token.ofText, String.toList_ofList, Token.scan_written h]
  subst hts
  refine ⟨fun e ↦ parse_eq_ok_iff, parse_of_unbalanced, fun es ↦ parse_of_length_ne_one, fun bs hbs ↦ ?_⟩
  exact parseValues_eq (parse_eq_ok_iff.2 hbs)

/-- Values of a word and of a quoted one, in two forms. -/
def twoValues : List Binding :=
  [⟨.atom "x", .atom (.ofList ['#', 'x', '0', 'A']), 10,
      .hexadecimal ⟨[10, 0], by decide, by decide, by decide, .cons (.inr rfl) (.cons (.inl rfl) .nil)⟩, by decide⟩,
    ⟨.atom "|a b|", .list [.atom "_", .atom (.ofList ['b', 'v', '7']), .atom "8"], 7,
      .indexed ⟨[7], by decide, by decide, by decide, .cons (.inl rfl) .nil⟩ "8", by decide⟩]

def twoLines : List Char :=
  ['(', '(', 'x', ' ', '#', 'x', '0', 'A', ')', '\n', ' ', '(', '|', 'a', ' ', 'b', '|', ' ',
    '(', '_', ' ', 'b', 'v', '7', ' ', '8', ')', ')', ')']

theorem written_twoLines : Written (SExpr.list (twoValues.map Binding.pair)).tokens twoLines := by
  have hend : Written [.closing, .closing, .closing] [')', ')', ')'] := .closing (.closing (.closing .nil))
  have hwidth := Written.word (@Spells.of_all '8' [] (by decide) (by decide)) (parted_cons (by decide)) hend
  have hdigits := Written.word (@Spells.of_all 'b' ['v', '7'] (by decide) (by decide)) (parted_cons (by decide))
    (.blank (c := ' ') (by decide) hwidth)
  have hindexed := Written.opening (.word (@Spells.of_all '_' [] (by decide) (by decide)) (parted_cons (by decide))
    (.blank (c := ' ') (by decide) hdigits))
  have hquoted := Written.word (@Spells.barred ['a', ' ', 'b'] (by decide)) (parted_cons (by decide))
    (.blank (c := ' ') (by decide) hindexed)
  have hlines := Written.blank (c := '\n') (by decide) (.blank (c := ' ') (by decide) (.opening hquoted))
  have hword := Written.word (@Spells.of_all '#' ['x', '0', 'A'] (by decide) (by decide)) (parted_cons (by decide))
    (.closing hlines)
  exact .opening (.opening (.word (@Spells.of_all 'x' [] (by decide) (by decide)) (parted_cons (by decide))
    (.blank (c := ' ') (by decide) hword)))

theorem parse_of_written_twoLines : Written (SExpr.list (twoValues.map Binding.pair)).tokens twoLines ∧
    parseValues (.ofList twoLines) = .ok [10, 7] :=
  ⟨written_twoLines, (parse_of_written written_twoLines).2.2.2 twoValues rfl⟩

end SExpr

end Symex.Smt
