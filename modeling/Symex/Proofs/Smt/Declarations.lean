import Symex.Proofs.Smt.Translation

namespace Symex

open Smt

/-! ## Arrays that are read -/

mutual

def Expr.Reads (A : NamedArray) : Expr → Prop
  | .const _ _ => False
  | .read u i => u.Reads A ∨ i.Reads A
  | .select c t f => c.Reads A ∨ t.Reads A ∨ f.Reads A
  | .concat m l => m.Reads A ∨ l.Reads A
  | .extract x _ _ | .zext x _ | .sext x _ | .not x => x.Reads A
  | .binary _ l r | .compare _ l r => l.Reads A ∨ r.Reads A

def Updates.Reads (A : NamedArray) : Updates → Prop
  | .base array => A = array
  | .write i x older => i.Reads A ∨ x.Reads A ∨ older.Reads A

end

def readsWritten (writes : List (Expr × Expr)) (A : NamedArray) : Prop :=
  ∃ p ∈ writes, p.1.Reads A ∨ p.2.Reads A

theorem readsWritten_cons {i v : Expr} {older : List (Expr × Expr)} {A : NamedArray} :
    readsWritten ((i, v) :: older) A ↔ i.Reads A ∨ v.Reads A ∨ readsWritten older A := by
  simp only [readsWritten, List.exists_mem_cons_iff, or_assoc]

theorem Updates.reads_iff {u : Updates} {A : NamedArray} :
    u.Reads A ↔ A = u.root ∨ readsWritten u.writes A := by
  induction u with
  | base B => simp only [Updates.Reads, root, writes, readsWritten, List.not_mem_nil, false_and, exists_false, or_false]
  | write i v older ih =>
    simp only [Updates.Reads, ih, root, writes, readsWritten_cons, or_left_comm]

namespace Smt

/-! ## Names -/

/-- The number under which a command defines something. -/
def Command.number? : Command → Option Nat
  | define s _ _ => s.number?
  | _ => none

theorem Command.exists_define {c : Command} {n : Nat} (h : c.number? = some n) :
    ∃ s kind body, c = define s kind body ∧ s.number? = some n := by
  cases c with
  | define s kind body => exact ⟨s, kind, body, rfl, h⟩
  | _ => cases h

namespace Symbol

variable {s : Symbol} {name name' : String} {n : Nat}

theorem text_ofName_eq_iff : (ofName name).text = (ofName name').text ↔ clean name = clean name' := by
  rw [text_injective.eq_iff, ofName, ofName, input.injEq]

theorem text_ne_ofName (h : s.number? = some n) : s.text ≠ (ofName name).text := by
  intro heq
  rw [text_injective heq] at h
  cases h

/-- The characters that cannot be quoted do not occur. -/
def Quotable (name : String) : Prop := ∀ c ∈ name.toList, c ≠ '|' ∧ c ≠ '\\'

theorem clean_of_quotable (h : Quotable name) : clean name = name := by
  rw [← String.toList_inj, clean, String.toList_map]
  refine (List.map_congr_left fun c hc ↦ ?_).trans (List.map_id _)
  simp [h c hc]

end Symbol

/-! ## Scripts -/

def Script.Knows (s : Script) (A : NamedArray) : Prop := s.roots[A]?.isSome

/-- The arrays that have symbols are in `S`. They are all that was met, each input was declared once, and
definitions have numbers in order. -/
structure Script.Filed (S : NamedArray → Prop) (s : Script) : Prop where
  declared : ∃ inputs : List NamedArray, inputs.Nodup ∧ (∀ A, A ∈ inputs ↔ A.isSymbolic ∧ s.Knows A) ∧
    s.declarations.toList = inputs.map fun A ↦ .declare (.ofName A.name)
  roots : ∀ (A : NamedArray) (sym : Symbol), s.roots[A]? = some sym →
    S A ∧ (A.isSymbolic → sym = .ofName A.name)
  values : ∀ (e : Expr) (sym : Symbol), s.values[e]? = some sym → ∀ A, e.Reads A → s.Knows A
  written : ∀ (below : Symbol) (writes : List (Expr × Expr)) (sym : Symbol),
    s.written[(below, writes)]? = some sym → ∀ A, readsWritten writes A → s.Knows A
  numbers : s.definitions.toList.map Command.number? = (List.range s.nextId).map some

namespace Script.Filed

variable {S : NamedArray → Prop} {s : Script} {A : NamedArray}

theorem empty : Script.Filed S {} where
  declared := ⟨[], .nil, fun A ↦ by simp [Script.Knows], rfl⟩
  roots _ _ h := by simp at h
  values _ _ h := by simp at h
  written _ _ _ h := by simp at h
  numbers := rfl

theorem define (h : s.Filed S) {symbol : Nat → Symbol} (hnumber : ∀ n, (symbol n).number? = some n)
    (kind : Kind) (body : Term) : ((Build.define symbol kind body).run s).2.Filed S := by
  refine { h with numbers := ?_ }
  change (s.definitions.push _).toList.map _ = (List.range (s.nextId + 1)).map some
  rw [Array.toList_push, List.map_append, h.numbers, List.range_succ, List.map_append]
  simp [Command.number?, hnumber]

theorem rememberValue (h : s.Filed S) {e : Expr} (sym : Symbol) (he : ∀ A, e.Reads A → s.Knows A) :
    { s with values := s.values.insert e sym }.Filed S := by
  refine { h with values := ?_ }
  intro e' sym' he'
  obtain ⟨rfl, -⟩ | he' := eq_or_of_getElem?_insert he'
  · exact he
  · exact h.values e' sym' he'

theorem rememberWritten (h : s.Filed S) (below sym : Symbol) {writes : List (Expr × Expr)}
    (hw : ∀ A, readsWritten writes A → s.Knows A) :
    { s with written := s.written.insert (below, writes) sym }.Filed S := by
  refine { h with written := ?_ }
  intro below' writes' sym' h'
  obtain ⟨heq, -⟩ | h' := eq_or_of_getElem?_insert h'
  · obtain ⟨-, rfl⟩ := Prod.mk.inj heq
    exact hw
  · exact h.written below' writes' sym' h'

end Script.Filed

theorem Script.knows_insert {s : Script} {A B : NamedArray} {sym : Symbol} :
    { s with roots := s.roots.insert A sym }.Knows B ↔ B = A ∨ s.Knows B := by
  by_cases heq : B = A
  · subst heq
    simp [Knows]
  · have hne : ¬(A == B) = true := fun h ↦ heq (eq_of_beq h).symm
    rw [Knows, Knows, Std.HashMap.getElem?_insert, if_neg hne, or_iff_right heq]

namespace Script.Filed

variable {S : NamedArray → Prop} {s : Script} {A : NamedArray} {sym : Symbol}

theorem rememberRoot (h : s.Filed S) (hA : S A) (hsym : A.isSymbolic → sym = .ofName A.name)
    {declarations : Array Command} {inputs : Std.TreeMap String NamedArray}
    (hdeclared : ∃ l : List NamedArray, l.Nodup ∧ (∀ B, B ∈ l ↔ B.isSymbolic ∧ (B = A ∨ s.Knows B)) ∧
      declarations.toList = l.map fun B ↦ .declare (.ofName B.name)) :
    { s with declarations, inputs, roots := s.roots.insert A sym }.Filed S where
  declared := by
    obtain ⟨l, hnodup, hmem, heq⟩ := hdeclared
    exact ⟨l, hnodup, fun B ↦ (hmem B).trans (and_congr_right fun _ ↦ Script.knows_insert.symm), heq⟩
  roots B sym' hB := by
    obtain ⟨rfl, rfl⟩ | hB := eq_or_of_getElem?_insert hB
    · exact ⟨hA, hsym⟩
    · exact h.roots B sym' hB
  values e sym' he B hB := Script.knows_insert.2 (.inr (h.values e sym' he B hB))
  written below writes sym' hw B hB := Script.knows_insert.2 (.inr (h.written below writes sym' hw B hB))
  numbers := h.numbers

theorem rememberTable (h : s.Filed S) (hA : S A) (htable : A.isSymbolic = false) (sym : Symbol) :
    { s with roots := s.roots.insert A sym }.Filed S := by
  obtain ⟨l, hnodup, hmem, heq⟩ := h.declared
  refine h.rememberRoot hA (by simp [htable]) ⟨l, hnodup, fun B ↦ (hmem B).trans ?_, heq⟩
  refine and_congr_right fun hB ↦ ⟨.inr, ?_⟩
  rintro (rfl | hknown)
  · simp [hB] at htable
  · exact hknown

theorem declare (h : s.Filed S) (hA : S A) (hsymbolic : A.isSymbolic) (hnew : s.roots[A]? = none) :
    { s with
      declarations := s.declarations.push (.declare (.ofName A.name))
      inputs := s.inputs.insert A.name A
      roots := s.roots.insert A (.ofName A.name) }.Filed S := by
  obtain ⟨l, hnodup, hmem, heq⟩ := h.declared
  refine h.rememberRoot hA (fun _ ↦ rfl) ⟨l ++ [A], ?_, fun B ↦ ?_, by simp [heq]⟩
  · refine List.nodup_append.2 ⟨hnodup, List.nodup_singleton A, fun B hB C hC ↦ ?_⟩
    obtain rfl := List.mem_singleton.1 hC
    rintro rfl
    have hknown := ((hmem B).1 hB).2
    simp [Script.Knows, hnew] at hknown
  · rw [List.mem_append, List.mem_singleton, hmem]
    constructor
    · rintro (⟨hB, hknown⟩ | rfl)
      · exact ⟨hB, .inr hknown⟩
      · exact ⟨hsymbolic, .inl rfl⟩
    · rintro ⟨hB, rfl | hknown⟩
      · exact .inr rfl
      · exact .inl ⟨hB, hknown⟩

end Script.Filed

namespace Build

/-- Where the arrays in `K` have symbols, all those in `K'` have one afterwards, and none loses it. -/
def Files {α : Type} (S K K' : NamedArray → Prop) (b : Build α) : Prop :=
  ∀ s : Script, s.Filed S → (∀ A, K A → s.Knows A) →
    (b.run s).2.Filed S ∧ (∀ A, s.Knows A → (b.run s).2.Knows A) ∧ ∀ A, K' A → (b.run s).2.Knows A

variable {α β : Type} {S K K₁ K₂ : NamedArray → Prop}

theorem files_pure {x : α} (h : ∀ A, K₁ A → K A) : Files S K K₁ (pure x) :=
  fun _ hs hK ↦ ⟨hs, fun _ hA ↦ hA, fun A hA ↦ hK A (h A hA)⟩

theorem files_bind {b : Build α} {k : α → Build β} (hb : Files S K K₁ b)
    (hk : ∀ x, Files S (fun A ↦ K A ∨ K₁ A) K₂ (k x)) : Files S K K₂ (b >>= k) := by
  intro s hs hK
  obtain ⟨hs₁, hkept, hK₁⟩ := hb s hs hK
  obtain ⟨hs₂, hkept', hK₂⟩ := hk _ _ hs₁ fun A hA ↦ hA.elim (fun h ↦ hkept A (hK A h)) (hK₁ A)
  exact ⟨hs₂, fun A hA ↦ hkept' A (hkept A hA), hK₂⟩

theorem files_root {A : NamedArray} (hA : S A) : Files S K (· = A) (root A) := by
  intro s hs hK
  cases hfound : s.roots[A]? with
  | some sym =>
    rw [root, run_get_bind, hfound]
    refine ⟨hs, fun _ h ↦ h, ?_⟩
    rintro _ rfl
    exact Option.isSome_iff_exists.2 ⟨sym, hfound⟩
  | none =>
    cases hcontents : A.contents with
    | some bytes =>
      have htable : A.isSymbolic = false := by simp [NamedArray.isSymbolic, hcontents]
      rw [root, run_get_bind, hfound, hcontents]
      have hs' := hs.define (fun n ↦ (rfl : (Symbol.table n).number? = _)) .array (tableBody bytes)
      exact ⟨hs'.rememberTable hA htable _, fun B hB ↦ Script.knows_insert.2 (.inr hB),
        fun B hB ↦ Script.knows_insert.2 (.inl hB)⟩
    | none =>
      have hsymbolic : A.isSymbolic := by simp [NamedArray.isSymbolic, hcontents]
      rw [root, run_get_bind, hfound, hcontents]
      exact ⟨hs.declare hA hsymbolic hfound, fun B hB ↦ Script.knows_insert.2 (.inr hB),
        fun B hB ↦ Script.knows_insert.2 (.inl hB)⟩

theorem files_value {e : Expr} {body : Build Term} (hbody : Files S K (Expr.Reads · e) body) :
    Files S K (Expr.Reads · e) (value e body) := by
  intro s hs hK
  cases hfound : s.values[e]? with
  | some sym =>
    rw [value, run_get_bind, hfound]
    exact ⟨hs, fun _ h ↦ h, hs.values e sym hfound⟩
  | none =>
    obtain ⟨hs₁, hkept, hreads⟩ := hbody s hs hK
    have hs₂ := hs₁.define (fun n ↦ (rfl : (Symbol.value n).number? = _)) (.bits e.width) (body.run s).1
    rw [value, run_get_bind, hfound]
    exact ⟨hs₂.rememberValue _ hreads, hkept, hreads⟩

theorem files_written {below array : Symbol} {t t' : Term} {writes : List (Expr × Expr)}
    (hK : ∀ A, readsWritten writes A → K A) :
    Files S K (readsWritten writes)
      (do
        let symbol ← define .written .array (.store (.symbol array) t t')
        modify fun s ↦ { s with written := s.written.insert (below, writes) symbol }
        return symbol) := by
  intro s hs hknown
  have hreads : ∀ A, readsWritten writes A → s.Knows A := fun A hA ↦ hknown A (hK A hA)
  have hs' := hs.define (fun n ↦ (rfl : (Symbol.written n).number? = _)) .array (.store (.symbol array) t t')
  exact ⟨hs'.rememberWritten _ _ hreads, fun _ h ↦ h, hreads⟩

mutual

theorem files_term {K : NamedArray → Prop} {e : Expr} (he : ∀ A, e.Reads A → S A) :
    Files S K (Expr.Reads · e) (term e) := by
  match e with
  | .const v w =>
    rw [term]
    exact files_pure fun A hA ↦ by simp [Expr.Reads] at hA
  | .read u i =>
    simp only [Expr.Reads] at he
    rw [term]
    refine files_value (files_bind (files_root (he u.root (.inl (Updates.reads_iff.2 (.inl rfl))))) fun sym ↦ ?_)
    refine files_bind (files_chain fun A hA ↦ he A (.inl (Updates.reads_iff.2 (.inr hA)))) fun array ↦ ?_
    refine files_bind (files_term fun A hA ↦ he A (.inr hA)) fun t ↦ files_pure fun A hA ↦ ?_
    simp only [Expr.Reads, Updates.reads_iff] at hA
    obtain (hroot | hwrites) | hindex := hA
    · exact .inl (.inl (.inr hroot))
    · exact .inl (.inr hwrites)
    · exact .inr hindex
  | .select c t f =>
    simp only [Expr.Reads] at he
    rw [term]
    refine files_value (files_bind (files_term fun A hA ↦ he A (.inl hA)) fun c' ↦ ?_)
    refine files_bind (files_term fun A hA ↦ he A (.inr (.inl hA))) fun t' ↦ ?_
    refine files_bind (files_term fun A hA ↦ he A (.inr (.inr hA))) fun f' ↦ files_pure fun A hA ↦ ?_
    simp only [Expr.Reads] at hA
    obtain hc | ht | hf := hA
    · exact .inl (.inl (.inr hc))
    · exact .inl (.inr ht)
    · exact .inr hf
  | .concat l r | .binary _ l r | .compare _ l r =>
    simp only [Expr.Reads] at he
    rw [term]
    refine files_value (files_bind (files_term fun A hA ↦ he A (.inl hA)) fun l' ↦ ?_)
    refine files_bind (files_term fun A hA ↦ he A (.inr hA)) fun r' ↦ files_pure fun A hA ↦ ?_
    simp only [Expr.Reads] at hA
    exact hA.imp .inr id
  | .extract x _ _ | .zext x _ | .sext x _ | .not x =>
    simp only [Expr.Reads] at he
    rw [term]
    refine files_value (files_bind (files_term he) fun x' ↦ files_pure fun A hA ↦ ?_)
    simp only [Expr.Reads] at hA
    exact .inr hA

theorem files_chain {K : NamedArray → Prop} {below : Symbol} {u : Updates}
    (hu : ∀ A, readsWritten u.writes A → S A) : Files S K (readsWritten u.writes) (chain below u) := by
  match u with
  | .base A =>
    rw [chain]
    exact files_pure fun A hA ↦ by simp [readsWritten, Updates.writes] at hA
  | .write i v older =>
    have hreads : ∀ A, readsWritten (Updates.write i v older).writes A ↔
        i.Reads A ∨ v.Reads A ∨ readsWritten older.writes A := fun A ↦ readsWritten_cons
    intro s hs hK
    rw [chain]
    cases hfound : s.written[(below, (Updates.write i v older).writes)]? with
    | some sym =>
      rw [run_get_bind, hfound]
      exact ⟨hs, fun _ h ↦ h, hs.written _ _ _ hfound⟩
    | none =>
      rw [run_get_bind, hfound]
      refine (?_ : Files S K (readsWritten (Updates.write i v older).writes) _) s hs hK
      refine files_bind (files_chain fun A hA ↦ hu A ((hreads A).2 (.inr (.inr hA)))) fun array ↦ ?_
      refine files_bind (files_term fun A hA ↦ hu A ((hreads A).2 (.inl hA))) fun i' ↦ ?_
      refine files_bind (files_term fun A hA ↦ hu A ((hreads A).2 (.inr (.inl hA)))) fun v' ↦ ?_
      refine files_written fun A hA ↦ ?_
      obtain hi | hv | holder := (hreads A).1 hA
      · exact .inl (.inr hi)
      · exact .inr hv
      · exact .inl (.inl (.inr holder))

end

end Build

/-! ## Requests -/

namespace Request

def Reads (A : NamedArray) : Request → Prop
  | term e | assertion e => e.Reads A
  | array B => A = B

variable {S K : NamedArray → Prop} {r : Request} {requests : List Request}

theorem files_perform (hr : ∀ A, r.Reads A → S A) : Build.Files S K (Reads · r) r.perform := by
  cases r with
  | term e => exact Build.files_term hr
  | assertion e => exact Build.files_bind (Build.files_term hr) fun t ↦ Build.files_pure fun A hA ↦ .inr hA
  | array B =>
    exact Build.files_bind (Build.files_root (hr B rfl)) fun sym ↦ Build.files_pure fun A hA ↦ .inr hA

theorem files_mapM_perform (hrequests : ∀ r ∈ requests, ∀ A, r.Reads A → S A) :
    Build.Files S K (fun A ↦ ∃ r ∈ requests, r.Reads A) (requests.mapM perform) := by
  induction requests generalizing K with
  | nil => exact Build.files_pure fun A hA ↦ by simp at hA
  | cons r rest ih =>
    rw [List.forall_mem_cons] at hrequests
    rw [List.mapM_cons]
    refine Build.files_bind (files_perform hrequests.1) fun t ↦ ?_
    refine Build.files_bind (ih hrequests.2) fun ts ↦ Build.files_pure fun A hA ↦ ?_
    rw [List.exists_mem_cons_iff] at hA
    exact hA.imp .inr id

def script (requests : List Request) : Script := ((requests.mapM perform).run {}).2

theorem filed_script (requests : List Request) :
    (script requests).Filed (fun A ↦ ∃ r ∈ requests, r.Reads A) ∧
      ∀ A, (∃ r ∈ requests, r.Reads A) → (script requests).Knows A := by
  have hfiles : Build.Files (fun A ↦ ∃ r ∈ requests, r.Reads A) (fun _ ↦ False) _ (requests.mapM perform) :=
    files_mapM_perform fun r hr A hA ↦ ⟨r, hr, hA⟩
  obtain ⟨hfiled, -, hknown⟩ := hfiles {} .empty fun A hA ↦ hA.elim
  exact ⟨hfiled, hknown⟩

theorem knows_script_iff {A : NamedArray} : (script requests).Knows A ↔ ∃ r ∈ requests, r.Reads A := by
  obtain ⟨hfiled, hknown⟩ := filed_script requests
  refine ⟨fun h ↦ ?_, hknown A⟩
  obtain ⟨sym, hsym⟩ := Option.isSome_iff_exists.1 h
  exact (hfiled.roots A sym hsym).1

theorem roots_script {A : NamedArray} (hA : A.isSymbolic) (hreads : ∃ r ∈ requests, r.Reads A) :
    (script requests).roots[A]? = some (.ofName A.name) := by
  obtain ⟨sym, hsym⟩ := Option.isSome_iff_exists.1 (knows_script_iff.2 hreads)
  rw [hsym, ((filed_script requests).1.roots A sym hsym).2 hA]

theorem exists_number_of_mem {c : Command} (hc : c ∈ (script requests).definitions.toList) :
    ∃ n, c.number? = some n := by
  have hmem := List.mem_map_of_mem (f := Command.number?) hc
  rw [(filed_script requests).1.numbers] at hmem
  obtain ⟨n, -, hn⟩ := List.mem_map.1 hmem
  exact ⟨n, hn.symm⟩

theorem nodup_definitions (requests : List Request) :
    (((script requests).definitions.toList.filterMap Command.symbol?).map Symbol.text).Nodup := by
  have hnumbers := (filed_script requests).1.numbers
  refine List.Nodup.map Symbol.text_injective ?_
  have hnodup : ((script requests).definitions.toList.map Command.number?).Nodup := by
    rw [hnumbers]
    exact List.nodup_range.map fun _ _ h ↦ Option.some.inj h
  refine List.Pairwise.filterMap _ (fun c c' hne s hs s' hs' ↦ ?_)
    (List.Pairwise.and_mem.1 (List.pairwise_map.1 hnodup))
  obtain ⟨hc, hc', hne⟩ := hne
  obtain ⟨n, hn⟩ := exists_number_of_mem hc
  obtain ⟨n', hn'⟩ := exists_number_of_mem hc'
  obtain ⟨s₀, kind, body, rfl, hs₀⟩ := Command.exists_define hn
  obtain ⟨s₀', kind', body', rfl, hs₀'⟩ := Command.exists_define hn'
  obtain rfl := Option.some.inj hs
  obtain rfl := Option.some.inj hs'
  rintro rfl
  exact hne rfl

/-- A script begins with one declaration for each input that is looked up, and has only definitions after
them, whose symbols differ from each other and from those of all inputs. Two inputs have the same symbol
only where their names are the same once quoted, so never if all characters can be quoted. -/
theorem declared_once (requests : List Request) :
    ∃ (inputs : List NamedArray) (definitions : List Command), inputs.Nodup ∧
      (∀ A, A ∈ inputs ↔ A.isSymbolic ∧ ∃ r ∈ requests, r.Reads A) ∧
      (script requests).preamble = inputs.map (fun A ↦ .declare (.ofName A.name)) ++ definitions ∧
      (∀ A ∈ inputs, (script requests).roots[A]? = some (.ofName A.name)) ∧
      (∀ A ∈ inputs, ∀ B ∈ inputs, (Symbol.ofName A.name).text = (Symbol.ofName B.name).text ↔
        Symbol.clean A.name = Symbol.clean B.name) ∧
      ((∀ A ∈ inputs, Symbol.Quotable A.name) → (inputs.map (·.name)).Nodup →
        (inputs.map fun A ↦ (Symbol.ofName A.name).text).Nodup) ∧
      ((definitions.filterMap Command.symbol?).map Symbol.text).Nodup ∧
      ∀ c ∈ definitions, ∃ sym kind body, c = .define sym kind body ∧
        ∀ name, sym.text ≠ (Symbol.ofName name).text := by
  obtain ⟨inputs, hnodup, hmem, hdeclared⟩ := (filed_script requests).1.declared
  have hinputs : ∀ A, A ∈ inputs ↔ A.isSymbolic ∧ ∃ r ∈ requests, r.Reads A := fun A ↦
    (hmem A).trans (and_congr_right fun _ ↦ knows_script_iff)
  refine ⟨inputs, (script requests).definitions.toList, hnodup, hinputs, ?_, fun A hA ↦ ?_,
    fun A _ B _ ↦ Symbol.text_ofName_eq_iff, fun hquotable hnames ↦ ?_, nodup_definitions requests,
    fun c hc ↦ ?_⟩
  · rw [Script.preamble, hdeclared]
  · exact roots_script ((hinputs A).1 hA).1 ((hinputs A).1 hA).2
  · refine List.Nodup.map_on (fun A hA B hB htext ↦ ?_) hnodup
    have hclean := Symbol.text_ofName_eq_iff.1 htext
    rw [Symbol.clean_of_quotable (hquotable A hA), Symbol.clean_of_quotable (hquotable B hB)] at hclean
    exact List.inj_on_of_nodup_map hnames hA hB hclean
  · obtain ⟨n, hn⟩ := exists_number_of_mem hc
    obtain ⟨sym, kind, body, rfl, hsym⟩ := Command.exists_define hn
    exact ⟨sym, kind, body, rfl, fun name ↦ Symbol.text_ne_ofName hsym⟩

/-- Two inputs whose names differ in a character that cannot be quoted. -/
def bars : List Request := [.array (.symbolic "a|b" 1), .array (.symbolic "a_b" 1)]

/-- The two have one symbol, and it is declared twice. -/
theorem bars_declared_twice :
    ∃ A B : NamedArray, A.isSymbolic ∧ B.isSymbolic ∧ A.name ≠ B.name ∧
      (script bars).roots[A]? = some (.input "a_b") ∧ (script bars).roots[B]? = some (.input "a_b") ∧
      ¬((script bars).preamble.map Command.text).Nodup := by
  have hclean : Symbol.ofName "a|b" = .input "a_b" := by
    rw [Symbol.ofName, Symbol.input.injEq, ← String.toList_inj, Symbol.clean, String.toList_map]
    rfl
  have hclean' : Symbol.ofName "a_b" = .input "a_b" := by
    rw [Symbol.ofName, Symbol.input.injEq, ← String.toList_inj, Symbol.clean, String.toList_map]
    rfl
  have hA : ∃ r ∈ bars, r.Reads (.symbolic "a|b" 1) := ⟨_, List.mem_cons_self, rfl⟩
  have hB : ∃ r ∈ bars, r.Reads (.symbolic "a_b" 1) := ⟨_, List.mem_cons_of_mem _ List.mem_cons_self, rfl⟩
  refine ⟨.symbolic "a|b" 1, .symbolic "a_b" 1, rfl, rfl, by decide, (roots_script rfl hA).trans (congrArg _ hclean),
    (roots_script rfl hB).trans (congrArg _ hclean'), fun hnodup ↦ ?_⟩
  obtain ⟨inputs, -, hmem, hdeclared⟩ := (filed_script bars).1.declared
  have hmemA := (hmem (.symbolic "a|b" 1)).2 ⟨rfl, knows_script_iff.2 hA⟩
  have hmemB := (hmem (.symbolic "a_b" 1)).2 ⟨rfl, knows_script_iff.2 hB⟩
  rw [Script.preamble, hdeclared, List.map_append, List.map_map] at hnodup
  have heq := List.inj_on_of_nodup_map hnodup.of_append_left hmemA hmemB
    (congrArg (fun s ↦ (Command.declare s).text) (hclean.trans hclean'.symm))
  exact absurd (congrArg NamedArray.name heq) (by decide)

end Request

end Smt

end Symex
