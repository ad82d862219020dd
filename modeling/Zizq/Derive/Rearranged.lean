import Zizq.Derive.Emit

/-! Attributes in another order.

The fields of a group can be written in any order, groups inside groups as well, and what
stands in one attribute can be spread over several. The derive emits the same
implementation, as long as the budgets stay in their order (`derive_rearranged`). -/
namespace Zizq.Derive
open Data Fields
variable {τ : Type} {syn : Syn}

/-- The same item, with the fields of its groups in another order. -/
inductive Meta.Rearranged : Meta τ → Meta τ → Prop
  | same (item : Meta τ) : Rearranged item item
  | group (ident : String) {items arranged items' : List (Meta τ)} (hitems : List.Forall₂ Rearranged items arranged)
      (hperm : arranged.Perm items') : Rearranged (.list ident items) (.list ident items')

/-- The budgets in their order and everything else in any order, each with its fields in any order. -/
structure Rearranges (items items' : List (Meta τ)) : Prop where
  budgets : List.Forall₂ Meta.Rearranged (items.filter Meta.isBudget) (items'.filter Meta.isBudget)
  others : ∃ arranged, List.Forall₂ Meta.Rearranged (items.filter fun item => !item.isBudget) arranged ∧
    arranged.Perm (items'.filter fun item => !item.isBudget)

/-! ### Groups -/

theorem Meta.Rearranged.eq_value {item item' : Meta τ} {ident : String} {e : Expr τ} (hitem : item = .value ident e)
    (h : item.Rearranged item') : item' = .value ident e := by
  cases h with
  | same => exact hitem
  | group => cases hitem

theorem Meta.Rearranged.eq_bare {item item' : Meta τ} {ident : String} (hitem : item = .bare ident)
    (h : item.Rearranged item') : item' = .bare ident := by
  cases h with
  | same => exact hitem
  | group => cases hitem

theorem Meta.Lists.rearranged {κ : Type} {ν : κ → Type} [DecidableEq κ] {all : List κ} (hall : all.Nodup)
    (hmem : ∀ k, k ∈ all) {writes : (k : κ) → ν k → Meta τ → Prop}
    (hwrites : ∀ k v item item', writes k v item → item.Rearranged item' → writes k v item')
    {slots : (k : κ) → Option (ν k)} {ident : String} {item item' : Meta τ}
    (h : item.Lists syn ident (WrittenBy all writes slots)) (hitem : item.Rearranged item') :
    item'.Lists syn ident (WrittenBy all writes slots) := by
  cases hitem with
  | same => exact h
  | group ident hitems hperm =>
    obtain ⟨_, heq, hempty, hwritten⟩ := h
    cases heq
    refine ⟨_, rfl, fun hnil => hempty ?_, hwritten.arrange hall hmem hwrites hitems hperm⟩
    rw [hnil, List.perm_nil] at hperm
    rwa [hperm, List.forall₂_nil_right_iff] at hitems

theorem BackoffAttr.Writes.rearranged {backoff : BackoffAttr τ} {item item' : Meta τ}
    (h : backoff.Writes syn item) (hitem : item.Rearranged item') : backoff.Writes syn item' := by
  refine Meta.Lists.rearranged (by decide) (fun k => by cases k <;> decide) (fun k e item item' h hitem => ?_) h hitem
  cases k <;> exact hitem.eq_value h

theorem RetentionAttr.Writes.rearranged {retention : RetentionAttr τ} {item item' : Meta τ}
    (h : retention.Writes syn item) (hitem : item.Rearranged item') : retention.Writes syn item' := by
  refine ⟨h.1, Meta.Lists.rearranged (by decide) (fun k => by cases k <;> decide) (fun k e item item' h hitem => ?_)
    h.2 hitem⟩
  cases k <;> exact hitem.eq_value h

theorem BudgetStrategyAttr.Writes.rearranged {strategy : BudgetStrategyAttr τ} {item item' : Meta τ}
    (h : strategy.Writes syn item) (hitem : item.Rearranged item') : strategy.Writes syn item' := by
  cases strategy with
  | whileInFlight => exact hitem.eq_bare h
  | timeBased =>
    refine Meta.Lists.rearranged (by decide) (fun k => by cases k <;> decide) (fun k e item item' h hitem => ?_)
      h hitem
    cases k <;> exact hitem.eq_value h

theorem BudgetPolicyAttr.Writes.rearranged {policy : BudgetPolicyAttr τ} {item item' : Meta τ}
    (h : policy.Writes syn item) (hitem : item.Rearranged item') : policy.Writes syn item' := by
  refine Meta.Lists.rearranged (by decide) (fun k => by cases k <;> decide) (fun k v item item' h hitem => ?_) h hitem
  cases k with
  | allocation => exact hitem.eq_value h
  | strategy => exact BudgetStrategyAttr.Writes.rearranged h hitem

theorem BudgetAttr.Writes.rearranged {budget : BudgetAttr τ} {item item' : Meta τ}
    (h : budget.Writes syn item) (hitem : item.Rearranged item') : budget.Writes syn item' := by
  refine Meta.Lists.rearranged (by decide) (fun k => by cases k <;> decide) (fun k v item item' h hitem => ?_) h hitem
  cases k with
  | key => exact hitem.eq_value h
  | cost => exact hitem.eq_value h
  | createWith => exact BudgetPolicyAttr.Writes.rearranged h hitem

theorem UniqueAttr.Writes.rearranged {unique : UniqueAttr} {item item' : Meta τ}
    (h : unique.Writes syn item) (hitem : item.Rearranged item') : unique.Writes syn item' := by
  rcases h with h | h
  · exact .inl ⟨hitem.eq_bare h.1, h.2⟩
  · refine .inr (Meta.Lists.rearranged (by decide) (fun k => by cases k <;> decide) (fun k v item item' h hitem => ?_)
      h hitem)
    cases k <;> exact hitem.eq_value h

theorem BatchKeyConfig.Writes.rearranged {key : BatchKeyConfig} {item item' : Meta τ}
    (h : key.Writes syn item) (hitem : item.Rearranged item') : key.Writes syn item' := by
  refine Meta.Lists.rearranged (by decide) (fun k => by cases k <;> decide) (fun k v item item' h hitem => ?_) h hitem
  cases k <;> exact hitem.eq_value h

theorem BatchAttr.Writes.rearranged {batch : BatchAttr τ} {item item' : Meta τ}
    (h : batch.Writes syn item) (hitem : item.Rearranged item') : batch.Writes syn item' := by
  refine Meta.Lists.rearranged (by decide) (fun k => by cases k <;> decide) (fun k v item item' h hitem => ?_) h hitem
  cases k with
  | path => exact hitem.eq_value h
  | limit => exact hitem.eq_value h
  | fold => exact h.imp (And.imp_right fun h => hitem.eq_bare h) (And.imp_right fun h => hitem.eq_bare h)
  | key => exact BatchKeyConfig.Writes.rearranged h hitem

/-! ### All attributes -/

theorem ZizqAttrs.Writes.rearranged {attrs : ZizqAttrs τ} {items items' : List (Meta τ)}
    (h : attrs.Writes syn items) (hitems : Rearranges items items') : attrs.Writes syn items' := by
  obtain ⟨arranged, hothers, hperm⟩ := hitems.others
  refine ⟨?_, h.distinct, h.others.arrange (by decide) (fun k => by cases k <;> decide) ?_ hothers hperm⟩
  · have hreplace (item item' : Meta τ) (budget : BudgetAttr τ) (h : flip (BudgetAttr.Writes syn) item budget)
        (hitem : item.Rearranged item') : flip (BudgetAttr.Writes syn) item' budget :=
      BudgetAttr.Writes.rearranged h hitem
    exact (forall₂_replace hreplace h.budgets.flip hitems.budgets).flip
  · intro k v item item' h hitem
    cases k with
    | name => exact hitem.eq_value h
    | queue => exact hitem.eq_value h
    | priority => exact hitem.eq_value h
    | retryLimit => exact hitem.eq_value h
    | backoff => exact BackoffAttr.Writes.rearranged h hitem
    | retention => exact RetentionAttr.Writes.rearranged h hitem
    | unique => exact UniqueAttr.Writes.rearranged h hitem
    | batch => exact BatchAttr.Writes.rearranged h hitem

/-- **Main theorem.** What is emitted does not depend on the order of the fields and items, nor on how they are
spread over attributes, but for the order of the budgets. -/
theorem derive_rearranged {platform : Platform} {input input' : DeriveInput τ} {emitted : JobKindImpl τ}
    (hident : input'.ident = input.ident) (hargs : ∀ attr ∈ input'.attrs, attr.path = "zizq" → attr.args.isSome)
    (hitems : Rearranges (itemsOf input.attrs) (itemsOf input'.attrs))
    (h : deriveJobKindImpl platform syn input = .ok emitted) :
    deriveJobKindImpl platform syn input' = .ok emitted := by
  obtain ⟨attrs, hparse, hemitted⟩ := derive_eq_ok_iff_parse.mp h
  have hwrites := (ZizqAttrs.parse_eq_ok_iff.mp hparse).2.rearranged hitems
  exact derive_eq_ok_iff_parse.mpr
    ⟨attrs, ZizqAttrs.parse_eq_ok_iff.mpr ⟨hargs, hwrites⟩, hident ▸ hemitted⟩

/-- `#[zizq(queue = "push", budget(key = "apns", cost = 2))]` and
`#[zizq(unique(scope = "active", only = [".user"]))]` -/
def pushKind : DeriveInput Unit where
  ident := "SendPush"
  attrs :=
    [⟨"zizq", some [.value "queue" (.str "push"),
      .list "budget" [.value "key" (.str "apns"), .value "cost" (.other ())]]⟩,
    ⟨"zizq", some [.list "unique" [.value "scope" (.str "active"), .value "only" (.array [.str ".user"])]]⟩]

/-- The same in one attribute, backwards. -/
def pushKindBackwards : DeriveInput Unit where
  ident := "SendPush"
  attrs :=
    [⟨"zizq", some [.list "unique" [.value "only" (.array [.str ".user"]), .value "scope" (.str "active")],
      .list "budget" [.value "cost" (.other ()), .value "key" (.str "apns")], .value "queue" (.str "push")]⟩]

def pushKindImpl : JobKindImpl Unit where
  name := "SendPush"
  queue := some "push"
  priority := none
  retryLimit := none
  backoff := none
  retention := none
  budgets := [⟨"apns", some (.other ()), none⟩]
  uniqueKey := some ⟨some (.only [[.field "user"]]), true, some .active⟩
  batch := none

theorem derive_rearranged_push :
    deriveJobKindImpl ⟨2 ^ 64 - 1, id⟩ ⟨true⟩ pushKindBackwards = .ok pushKindImpl := by
  have hderive : deriveJobKindImpl ⟨2 ^ 64 - 1, id⟩ ⟨true⟩ pushKind = .ok pushKindImpl := rfl
  have hswap (ident : String) (item item' : Meta Unit) :
      Meta.Rearranged (.list ident [item, item']) (.list ident [item', item]) :=
    .group ident (List.forall₂_same.mpr fun item _ => .same item) (.swap ..)
  have hident : pushKindBackwards.ident = pushKind.ident := rfl
  refine derive_rearranged hident (fun attr hattr _ => ?_) ⟨?_, ?_⟩ hderive
  · obtain rfl := List.mem_singleton.mp hattr
    rfl
  · exact .cons (hswap "budget" _ _) .nil
  · exact ⟨_, .cons (.same _) (.cons (hswap "unique" _ _) .nil), .swap ..⟩

end Zizq.Derive
