import SeriesQuery.Proofs.Select.Layout

/-!
Select lists with window functions.

The items and their windows read what is written for them, from an inner layer if an item
without a window is computed (`Select.analyze_spec`); so an analytic select list shows its
items (`Layers.IsLayout.shown_analytic`).
-/

namespace SeriesQuery

namespace Select

/-- The column of an item, as an item that reads from the layer below. -/
def ofWindowed (c : WindowedColumn) : Item :=
  ⟨c.name, c.expr, c.window⟩

/-- The column of an analytic projection that an item becomes. -/
def Item.toWindowed (item : Item) : WindowedColumn :=
  ⟨item.name, item.expr, item.window⟩

/-- Whether the item is computed below the windows. -/
def Item.isComputed (item : Item) : Bool :=
  item.window.isNone && !item.isColumn

theorem Item.isComputed_eq_true {item : Item} (h : item.isComputed = true) :
    item.window = none ∧ item.isColumn = false := by
  simpa [isComputed] using h

theorem windowItem_eq (item : Item) :
    windowItem item =
      Item.toWindowed <$> if item.isComputed then item.publish else item.carry := by
  obtain ⟨name, expr, window⟩ := item
  cases window with
  | some w => rfl
  | none => cases expr <;> rfl

/-- A column of an analytic projection reads what its item is. -/
theorem windowItem_ensures {known : ColumnRef → Prop} (hknown : SpelledApart known) {item : Item}
    (hitem : item.RefersTo known) (hhonest : item.isColumn = false → item.expr.Honest known) :
    (Layer.growth known).Ensures (fun _ => True) (windowItem item)
      fun layer c => item.ReadsAs layer.Reads (ofWindowed c) := by
  rw [windowItem_eq]
  refine .map (R := fun layer => item.ReadsAs layer.Reads) ?_ fun _ _ h => h
  split
  · rename_i hcomputed
    obtain ⟨hwindow, hcolumn⟩ := Item.isComputed_eq_true hcomputed
    exact Item.publish_ensures hwindow (Layer.publish_ensures _ (hhonest hcolumn))
  · exact Item.carry_ensures Layer.reads_lasting fun e he => Layer.carry_ensures hknown (hitem e he)

/-- The columns of an analytic projection read what the items are. -/
theorem analyze_spec {items : List Item} (hknown : SpelledApart (RefersIn items))
    (hcomputed : ComputedApart items) :
    ∃ columns, (analyze items).2 = .analytic columns ∧
      List.Forall₂ (fun item c =>
        Item.ReadsAs (Layer.ReadsThrough (analyze items).1) item (ofWindowed c)) items columns := by
  unfold analyze
  split
  · have hrun : (Layer.growth (RefersIn items)).Ensures (fun _ => True) (items.mapM windowItem)
        fun layer columns => List.Forall₂ (fun item c =>
          Item.ReadsAs layer.Reads item (ofWindowed c)) items columns :=
      Growth.Ensures.mapM (fun _ h => h)
        (fun item c => Item.readsAs_lasting Layer.reads_lasting item (ofWindowed c))
        fun item hitem => windowItem_ensures hknown (RefersIn.refersTo hitem) (hcomputed.honest hitem)
    exact ⟨_, rfl, (hrun Layer.empty (Layer.sound_empty _) trivial).2.2⟩
  · refine ⟨_, rfl, List.forall₂_map_right_iff.mpr (List.forall₂_same.mpr fun item _ => ?_)⟩
    exact item.readsAs_self (R := Layer.ReadsThrough none) fun _ => rfl

end Select

open Select

namespace Layers.IsLayout

variable {select : SelectClause} {scope : Scope} {key : Option Expr} {l : Layers}

/-- A select list with window functions is analyzed. -/
theorem analytic (h : l.IsLayout select scope key) (hwindows : select.isAnalytic = true) :
    l.inner = (analyze (laidOut select key)).1 ∧ l.main = (analyze (laidOut select key)).2 ∧
      l.outer = none := by
  have hplain : select.hasAggregate = false := by
    simpa [hwindows] using (SelectClause.resolve_ok h.resolved).2.2
  have hprojections := h.projections
  rw [hplain, h.isAnalytic, hwindows] at hprojections
  simpa [project] using hprojections

/-- A select list with window functions shows its items. -/
theorem shown_analytic {body : Model} (h : l.IsLayout select scope key)
    (hwindows : select.isAnalytic = true) (hwritten : AsWritten select key)
    (hcomputed : ComputedApart (laidOut select key)) (hbody : body.projection = none) :
    l.outer = none ∧ l.main.isAnalytic = true ∧
      List.Forall₂ IsShown l.items (l.sorted body).outputs := by
  obtain ⟨hinner, hmain, houter⟩ := h.analytic hwindows
  obtain ⟨columns, hcolumns, hread⟩ := analyze_spec (isLaidOut h.given hwritten).spelled hcomputed
  rw [hcolumns] at hmain
  refine ⟨houter, by rw [hmain]; rfl, shown_of_main houter hbody ?_⟩
  rw [hmain, hinner]
  refine List.forall₂_map_right_iff.mpr
    (forall₂_comp (h.reads hwritten) hread fun item read c hitem hc => ?_)
  exact ⟨hc.name.trans hitem.1, read.expr, hitem.2, hc.expr⟩

end Layers.IsLayout

end SeriesQuery
