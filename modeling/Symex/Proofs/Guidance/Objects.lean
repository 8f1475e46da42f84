import Symex.Proofs.Feasibility.Objects
import Symex.Proofs.Guidance.Arms
import Symex.Proofs.Integrity.Works
import Symex.Proofs.Resolution

namespace Symex

open Checked

variable {σ α β : Type} {L : Likeness} {o : Outset} {held : List State} {p : Prop} {focus : Focus σ}

namespace MemoryObject

variable {pointer offset : Expr} (x : MemoryObject)

theorem meets_offset (hp : pointer.Determined L) : Meets (x.offset pointer) (Expr.Determined L) :=
  (hp.mkBinary .sub (Expr.determined_pointer _)).mono fun _ h ↦ h.1

theorem meets_accessInside (ho : offset.Determined L) (bytes : Nat) : Meets (x.accessInside offset bytes) fun c ↦
    (c.Determined L ∧ c.width = 1) ∧ ∀ a : Assignment, a.free = true → a.val c ≠ 0 →
      ∀ i < bytes, a.val offset + i < x.size := by
  unfold accessInside
  split
  · exact ends_pure ⟨⟨Expr.determined_bool _, rfl⟩, fun a _ h ↦ absurd (by simp [Expr.bool]) h⟩
  · rename_i hle
    refine ends_bind (ends_true_iff.2 fun _ ↦ ObjectState.addChecked_eq_ok.1) ?_
    rintro _ ⟨hlt, rfl⟩
    have hlimit := Expr.determined_pointer (L := L) (x.size - bytes + 1)
    refine (Checked.Ends.and (ho.mkCompare .ult hlimit) (ends_true_iff.2 fun c hc ↦ ?_)).mono fun _ h ↦ h
    intro a ha hne i hi
    obtain ⟨c', hc', hmeans⟩ := Expr.exists_mkUlt ho.wellFormed hlimit.wellFormed (Expr.mkCompare_eq_ok.1 hc).1
    obtain rfl := Except.ok.inj (hc'.symm.trans hc)
    have hval := (hmeans.2 ha).1 hne
    rw [Assignment.val_pointer hlt] at hval
    omega

theorem meets_pointerAccessInside (hp : pointer.Determined L) (bytes : Nat) :
    Meets (x.pointerAccessInside pointer bytes) fun c ↦ (c.Determined L ∧ c.width = 1) ∧
      ∀ offset, x.offset pointer = .ok offset → ∀ a : Assignment, a.free = true → a.val c ≠ 0 →
        ∀ i < bytes, a.val offset + i < x.size := by
  refine ends_true_iff.2 fun c hc ↦ ?_
  obtain ⟨offset, ho, hc⟩ := bind_eq_ok.1 hc
  obtain ⟨hdet, hin⟩ := (x.meets_accessInside ((x.meets_offset hp).of_eq ho) bytes).of_eq hc
  refine ⟨hdet, fun offset' ho' ↦ ?_⟩
  obtain rfl := Except.ok.inj (ho.symm.trans ho')
  exact hin

end MemoryObject

theorem AddressSpace.Determined.of_mem {K : MemoryObject → Prop} {m : AddressSpace} {x : ObjectState}
    (hm : m.Determined L K) (hx : x ∈ m.toList) : K x.object := by
  obtain ⟨p, hp, rfl⟩ := List.mem_map.1 hx
  exact (hm.contents p hp).2

namespace Access

def Determined (L : Likeness) : Access → Prop
  | load _ _ => True
  | store value => value.Determined L

def reads : Access → Nat
  | load width _ => Bits.byteCount width
  | store _ => 0

theorem reads_le (access : Access) : access.reads ≤ Bits.byteCount access.width := by
  cases access with
  | load width destination => exact Nat.le_refl _
  | store value => exact Nat.zero_le _

theorem Determined.meets_mapValue {access : Access} {f : Expr → Checked Expr} (h : access.Determined L)
    (hf : ∀ {e : Expr}, e.Determined L → Meets (f e) (Expr.Determined L)) :
    Meets (access.mapValue f) fun access' ↦ access'.Determined L ∧ access'.reads = access.reads := by
  cases access with
  | load width destination => exact ends_pure ⟨trivial, rfl⟩
  | store value => exact ends_bind (hf h) fun _ h ↦ ends_pure ⟨h, rfl⟩

end Access

def Outset.Keyed (o : Outset) : Prop := ∀ x y, o.object x → o.object y → x.key = y.key → x = y

namespace Exec

variable {address offset : Expr} {access : Access}

theorem guidesAt_perform {object : MemoryObject} (hkeys : o.Keyed) (hf : focus.Guided o held p True)
    (hobject : o.object object) (haccess : access.Determined o.apart) (ho : offset.Determined o.apart)
    (hin : ∀ a, Inputs.all.Solves a focus.state.constraints → ∀ i < access.reads, a.val offset + i < object.size) :
    (perform access object offset).GuidesAt o held focus p fun _ _ ↦ True := by
  have hs := hf.spans
  refine ends_bind_ok rfl ?_
  dsimp only
  split
  · exact guidesAt_fail _ hf
  · rename_i contents hcontents
    obtain ⟨hdet, hheld, hkey⟩ := hs.grounded.memory.of_find? hcontents
    have heq : contents.object = object := hkeys _ _ hheld hobject hkey
    cases access with
    | load width destination =>
      refine guidesAt_bind (guidesAt_lift (hdet.read (ho.mono hs.like_le) width fun a b hab i hi ↦ ?_) hf) ?_
      · rw [hdet.size_eq, heq]
        exact hin a hab.2.1 i hi
      · rintro value f hf ⟨rfl, hvalue⟩
        refine (guidesAt_updateState (P := fun _ ↦ True) ?_ hf).mono id fun _ _ _ ↦ trivial
        exact (hs.grounded.meets_write destination hvalue).mono fun _ h ↦ ⟨h, trivial⟩
    | store value =>
      have hstore : (updateState fun s ↦ do
          return { s with memory := ← s.memory.modify object (·.write offset value) } :
          Exec σ Unit).Guides o p p fun _ ↦ True :=
        guides_updateState fun s hs ↦ Checked.ends_bind (hs.grounded.memory.meets_modify fun x hx ↦
          hx.write (ho.mono hs.like_le) (Expr.Determined.mono haccess hs.like_le)) fun m hm ↦
            Checked.ends_pure (hs.grounded.withMemory hm)
      dsimp only
      split
      · exact guides_fail_bind _ held focus hf
      · exact hstore held focus hf

theorem guidesAt_probe {question : ConstraintSet → Ask σ α} {R : α → Prop} (hf : focus.Guided o held p True)
    (hq : (question focus.state.constraints).Probes Inputs.all fun _ ↦ True)
    (hl : (question focus.state.constraints).Looks R) :
    (ask question).GuidesAt o held focus p fun r _ ↦ ∀ a, r = .ok a → R a :=
  ends_ask_any ((Checked.Ends.and (hq _ hf.executor.exact) (hl _)).weaken (fun _ _ ↦ trivial) |>.mono fun q h ↦
    ⟨rfl, by rintro _ ⟨⟩; exact ⟨hf.withSolver h.1.1, h.2⟩, nofun⟩)

theorem guidesAt_findObject (hf : focus.Guided o held p True) (haddress : address.Determined o.apart) :
    (findObject address).GuidesAt o held focus p fun q _ ↦
      (∀ x, q.1 = some x → o.object x) ∧ q.2.Determined o.apart := by
  have hs := hf.spans.grounded
  have hobject {s : State} (hs : s.Grounded o.object) {found : Option ObjectState}
      (h : ∀ x, found = some x → x ∈ s.memory.toList) : ∀ x, found.map (·.object) = some x → o.object x := by
    intro x hx
    obtain ⟨y, hy, rfl⟩ := Option.map_eq_some_iff.1 hx
    exact hs.memory.of_mem (h y hy)
  refine ends_bind_ok rfl (guidesAt_bind (guidesAt_probe hf
    (AddressSpace.probes_resolveSymbolic hs.valid hs.satisfiable haddress.wellFormed _)
    (AddressSpace.looks_resolveSymbolic _ _ _ hs.memory.sorted)) fun r f hf h ↦ ?_)
  split
  · exact guidesAt_pure hf ⟨hobject hs (h _ rfl), haddress⟩
  · refine guidesAt_bind (guides_toConstant haddress held f hf) fun address f hf haddress ↦ ends_bind_ok rfl ?_
    have hs := hf.spans.grounded
    refine guidesAt_pure hf ⟨hobject hs fun x hx ↦ ?_, haddress.1⟩
    obtain ⟨n, -, hn⟩ := Option.bind_eq_some_iff.1 hx
    exact f.state.memory.mem_toList_of_resolveOne hs.memory.sorted hn

theorem guides_resolve (haddress : address.WellFormed) : (resolve address : Exec σ _).Guides o p p fun r ↦
    ∀ x ∈ r.objects.map (·.object), o.object x := by
  intro held focus hf
  have hs := hf.spans.grounded
  have hsearch := Checked.Ends.and (AddressSpace.searches_resolve hs.valid hs.satisfiable haddress focus.state.memory
    focus.executor.config.maxResolutions focus.executor.solver.timeout _ hf.executor.exact)
    (AddressSpace.looks_resolve focus.state.constraints address focus.state.memory hs.memory.sorted
      focus.executor.config.maxResolutions focus.executor.solver.timeout focus.executor.solver)
  refine ends_bind_ok rfl (ends_lift_bind (hsearch.weaken (fun _ _ ↦ trivial) |>.mono fun q hq ↦ ?_))
  refine ends_bind_ok rfl (ends_pure ⟨rfl, ?_, nofun⟩)
  rintro _ ⟨⟩
  refine ⟨hf.withSolver hq.1.1, fun x hx ↦ ?_⟩
  obtain ⟨y, hy, rfl⟩ := List.mem_map.1 hx
  exact hs.memory.of_mem (hq.2 y hy)

theorem guidesAt_eachObject {condition : MemoryObject → Checked Expr}
    {work : Branch → MemoryObject → Exec σ (Option α)} {T : α → Prop} {objects : List MemoryObject}
    {remaining : Option Branch} (hf : focus.Guided o held False True) (hremaining : o.FreshAt remaining)
    (hcondition : ∀ x, Meets (condition x) fun c ↦ c.Determined o.apart ∧ c.width = 1)
    (hwork : ∀ b c f, ∀ x ∈ objects, condition x = .ok c → o.Fresh b → f.Guided o held False True →
      (∀ s, f.stateAt? b = some s → ∀ a, Inputs.all.Solves a s.constraints → a.val c ≠ 0) →
      (work b x).GuidesAt o held f False fun r _ ↦ ∀ a, r = some a → T a) :
    (eachObject condition work objects remaining).GuidesAt o held focus False fun q _ ↦
      (∀ a ∈ q.1, T a) ∧ o.FreshAt q.2 := by
  induction objects generalizing remaining focus with
  | nil => exact guidesAt_pure hf ⟨by simp, hremaining⟩
  | cons x rest ih =>
    cases remaining with
    | none => exact guidesAt_pure hf ⟨by simp, Outset.freshAt_none⟩
    | some branch =>
      have hrest {outside : Option Branch} (here : Option α) (hhere : ∀ a, here = some a → T a) {f : Focus σ}
          (hf : f.Guided o held False True) (houtside : o.FreshAt outside) := guidesAt_bind
        (ih hf houtside fun b c f y hy ↦ hwork b c f y (List.mem_cons_of_mem _ hy)) fun q f hf hq ↦
          guidesAt_pure (a := (here.toList ++ q.1, q.2)) (Q := fun q _ ↦ (∀ a ∈ q.1, T a) ∧ o.FreshAt q.2) hf
            ⟨fun a ha ↦ (List.mem_append.1 ha).elim (fun ha ↦ hhere a (Option.mem_toList.1 ha)) (hq.1 a), hq.2⟩
      refine guidesAt_bind (guidesAt_lift (P := fun c ↦ (c.Determined o.apart ∧ c.width = 1) ∧ condition x = .ok c)
        (ends_true_iff.2 fun c hc ↦ ⟨(hcondition x).of_eq hc, hc⟩) hf) ?_
      rintro c f hf ⟨rfl, hc, heq⟩
      refine guidesAt_bind (guidesAt_forkOn (hremaining _ rfl) hf hc.1 hc.2 true) ?_
      rintro ⟨inside, outside⟩ f hf hparts
      cases inside with
      | none => exact ends_bind_ok rfl (hrest none nofun hf hparts.outside)
      | some inside =>
        obtain ⟨rfl, hholds⟩ := hparts.holds inside rfl
        exact guidesAt_bind (hwork _ c f x List.mem_cons_self heq (hparts.inside _ rfl) hf hholds) fun here f hf hhere ↦
          hrest here hhere hf hparts.outside

theorem guides_reportPointer (haddress : address.WellFormed) (error : ExecError) : (do
    let details ← addressInfo address
    terminateOnError ⟨(← executor).location, error⟩ (some details) : Exec σ Unit).Guides o p False fun _ ↦ True :=
  guides_bind (guides_addressInfo haddress) fun _ _ ↦ guides_bind guides_executor fun _ _ ↦
    guides_terminateOnError _ _

theorem guidesAt_accessEach (hkeys : o.Keyed) (hf : focus.Guided o held p True)
    (haccess : access.Determined o.apart) (haddress : address.Determined o.apart) :
    (accessEach access address).GuidesAt o held focus False fun _ _ ↦ True := by
  refine guidesAt_bind (guides_resolve haddress.wellFormed held focus hf) fun resolution f hf hobjects ↦ ?_
  refine guidesAt_bind (guidesAt_lift (P := (· = Bits.byteCount access.width)) ?_ hf) ?_
  · exact Checked.ends_bind (P := fun _ ↦ True) (ends_true_iff.2 fun _ _ ↦ trivial) fun _ _ ↦ Checked.ends_pure rfl
  rintro _ f hf ⟨rfl, rfl⟩
  have hcondition (x : MemoryObject) := x.meets_pointerAccessInside haddress (Bits.byteCount access.width)
  refine guidesAt_bind (guidesAt_eachObject (T := fun _ ↦ True) hf.rest Outset.freshAt_current
    (fun x ↦ (hcondition x).mono fun _ h ↦ h.1) fun b c g x hx hc hb hg hholds ↦ ?_) fun q g hg hq ↦ ?_
  · have hin := ((hcondition x).of_eq hc).2
    refine (firmAt_onBranch (q := True) (Q := fun _ _ ↦ True) hb hg fun held k hk hat ↦ ?_).guidesAt.mono id
      fun _ _ _ _ _ ↦ trivial
    refine guidesAt_bind (guidesAt_lift (P := fun offset ↦ offset.Determined o.apart ∧ x.offset address = .ok offset)
      (ends_true_iff.2 fun _ ho ↦ ⟨(x.meets_offset haddress).of_eq ho, ho⟩) hk) ?_
    rintro offset k hk ⟨rfl, ho, heq⟩
    refine guidesAt_perform hkeys hk (hobjects x hx) haccess ho fun a ha i hi ↦ ?_
    exact hin offset heq a ha.possible (hholds _ hat a ha) i (Nat.lt_of_lt_of_le hi access.reads_le)
  · refine guides_onSide hq.2 (q := False) ?_ held g hg
    split
    · exact guides_terminateEarly _
    · exact guides_reportPointer haddress.wellFormed _

theorem guidesAt_access_simplified {bytes : Nat} (config : Config) (hkeys : o.Keyed)
    (hf : focus.Guided o held True True) (hbytes : access.reads ≤ bytes)
    (haccess : access.Determined o.apart) (haddress : address.Determined o.apart) : (do
      let (found, address) ← findObject address
      match found with
      | none => accessEach access address
      | some object =>
        let offset ← object.offset address
        let large := config.maxSymbolicArraySize ≠ 0 ∧ config.maxSymbolicArraySize ≤ object.size
        let offset ← if large ∧ !offset.isConst then toConstant offset else pure offset
        let inside ← object.accessInside offset bytes
        if ← query (Solver.mustBeTrue · inside) then perform access object offset
        else accessEach access address : Exec σ Unit).GuidesAt o held focus False fun _ _ ↦ True := by
  refine guidesAt_bind (guidesAt_findObject hf haddress) ?_
  rintro ⟨found, address⟩ f hf ⟨hfound, haddress⟩
  cases found with
  | none => exact guidesAt_accessEach hkeys hf haccess haddress
  | some object =>
    have hobject := hfound object rfl
    have hend {offset : Expr} {f : Focus σ} (hf : f.Guided o held True True) (ho : offset.Determined o.apart) : (do
        let inside ← object.accessInside offset bytes
        if ← query (Solver.mustBeTrue · inside) then perform access object offset
        else accessEach access address : Exec σ Unit).GuidesAt o held f False fun _ _ ↦ True := by
      refine guidesAt_bind (guidesAt_lift (object.meets_accessInside ho bytes) hf) ?_
      rintro inside f hf ⟨rfl, hinside, hin⟩
      have hs := hf.spans.grounded
      refine guidesAt_bind
        (guidesAt_query (Solver.answers_mustBeTrue hs.valid hs.satisfiable hinside.1.wellFormed) hf) ?_
      rintro b f hf ⟨⟨solver, rfl⟩, hmust⟩
      split
      · rename_i hb
        refine (guidesAt_perform hkeys hf hobject haccess ho fun a ha i hi ↦ ?_).mono False.elim fun _ _ _ ↦ trivial
        exact hin a ha.possible (hmust.1 hb a ha) i (Nat.lt_of_lt_of_le hi hbytes)
      · exact guidesAt_accessEach hkeys hf haccess haddress
    refine guidesAt_bind (guidesAt_lift (object.meets_offset haddress) hf) ?_
    rintro offset f hf ⟨rfl, ho⟩
    dsimp only
    split
    · exact guidesAt_bind (guides_toConstant ho held f hf) fun _ f hf ho ↦ hend hf ho.1
    · exact ends_bind_ok rfl (hend hf ho)

theorem guidesAt_access (hkeys : o.Keyed) (hf : focus.Guided o held True True)
    (hlike : o.apart ≤ focus.state.like) (haccess : access.Determined o.apart)
    (haddress : address.Determined o.apart) :
    (Exec.access access address).GuidesAt o held focus False fun _ _ ↦ True := by
  refine ends_bind_ok rfl (guidesAt_bind (guidesAt_lift (P := (· = Bits.byteCount access.width)) ?_ hf) ?_)
  · exact Checked.ends_bind (P := fun _ ↦ True) (ends_true_iff.2 fun _ _ ↦ trivial) fun _ _ ↦ Checked.ends_pure rfl
  rintro _ f hf ⟨rfl, rfl⟩
  have hsimplify : ∀ {e : Expr}, e.Determined o.apart →
      Meets (f.state.constraints.simplify e) (Expr.Determined o.apart) := fun he ↦
    he.simplify hf.spans.grounded.valid fun hab ↦ ⟨(hlike hab).2.1.holds, (hlike hab).2.2.holds⟩
  refine ends_bind_ok rfl ?_
  dsimp only
  split
  · refine guidesAt_bind (guidesAt_lift (hsimplify haddress) hf) ?_
    rintro address f hf ⟨rfl, haddress⟩
    refine guidesAt_bind (guidesAt_lift (haccess.meets_mapValue hsimplify) hf) ?_
    rintro access' f hf ⟨rfl, haccess', hreads⟩
    exact ends_bind_ok rfl (guidesAt_access_simplified _ hkeys hf (hreads ▸ access.reads_le) haccess' haddress)
  · exact ends_bind_ok rfl (guidesAt_access_simplified _ hkeys hf access.reads_le haccess haddress)

theorem guides_resolveExact (haddress : address.Determined o.apart) (operation : String) :
    (resolveExact address operation : Exec σ _).Guides o p False fun l ↦ ∀ q ∈ l, o.Fresh q.1 := by
  intro held focus hf
  refine guidesAt_bind (guides_resolve haddress.wellFormed held focus hf) fun resolution f hf _ ↦ ?_
  refine guidesAt_bind (guidesAt_eachObject (T := fun q : Branch × MemoryObject ↦ o.Fresh q.1) hf.rest
    Outset.freshAt_current (fun x ↦ haddress.mkCompare .eq (Expr.determined_pointer _))
      fun b c g x _ _ hb hg _ ↦ guidesAt_pure hg ?_) fun q g hg hq ↦ ?_
  · rintro _ ⟨⟩
    exact hb
  · exact guidesAt_bind (guides_onSide hq.2 (guides_reportPointer haddress.wellFormed _) held g hg) fun _ _ hg _ ↦
      guidesAt_pure hg hq.1

end Exec

end Symex
