import Uniorm.Foundation.Action
import Uniorm.Foundation.Lists
import Uniorm.Oracle.Fetch

/-! # Runs of a query

The states that a query comes to: its columns are bound, each once, and blocks of
rows are fetched. Whatever came before, a fetch that returns has filled every
place of its block from the cell of its row and column.
-/
namespace Uniorm.Oracle

open Foundation

section
variable {V : Type} (oci : Oci V)

structure ColumnSlot.Refilled (slot slot' : ColumnSlot) : Prop where
  position : slot'.position = slot.position
  requested : slot'.requested = slot.requested
  described : slot'.described = slot.described
  kind : slot'.kind = slot.kind
  rowSize : slot'.rowSize = slot.rowSize
  places : slot'.places.length = slot.places.length

/-- What a fetch that has thrown may have left behind. -/
structure Statement.Torn (s s' : Statement V) : Prop where
  metadataRead : s'.metadataRead = s.metadataRead
  described : s'.described = s.described
  result : s'.result = s.result
  rowArraySize : s'.rowArraySize = s.rowArraySize
  slots : List.Forall₂ ColumnSlot.Refilled s.slots s'.slots

/-- The states of a query: its columns are bound, and blocks of rows are fetched. -/
inductive Reached : Statement V → Prop where
  | executed (described : List DescribedColumn) (result : List (List (Cell V))) (size : ℕ) :
    Reached (.executed described result size)
  | bound {s s' : Statement V} {index : ℕ} {r : Requested} {places : List (Place r)} (h : Reached s)
    (hplaces : places.length = s.rowArraySize) (hbind : s.bindColumn index r places = .ok s') :
    Reached s'
  | fetched {s s' : Statement V} (h : Reached s) (hfetch : s.fetch oci = .ok (some s')) : Reached s'
  | failed {s s' : Statement V} {e : OciError} (h : Reached s) (hfetch : s.fetch oci = .error e)
    (htorn : s.Torn s') : Reached s'

/-- A slot as `bind_column` sets it up. -/
structure ColumnSlot.Bound (s : Statement V) (slot : ColumnSlot) : Prop where
  described : s.described[slot.position - 1]? = some slot.described
  kind : pickStage slot.requested slot.described = .ok slot.kind
  rowSize : slot.rowSize =
    if slot.kind = .text ∨ slot.kind = .binary then
      stageWidth slot.described slot.requested.capacity else 0
  places : slot.places.length = s.rowArraySize

structure Statement.Ready (s : Statement V) : Prop where
  bound : ∀ slot ∈ s.slots, slot.Bound s
  distinct : (s.slots.map ColumnSlot.position).Nodup

theorem ready_bindColumn {s s' : Statement V} {index : ℕ} {r : Requested} {places : List (Place r)}
    (h : s.Ready) (hplaces : places.length = s.rowArraySize)
    (hbind : s.bindColumn index r places = .ok s') : s'.Ready := by
  unfold Statement.bindColumn at hbind
  split at hbind
  · cases hbind
  split at hbind
  · cases hbind
  rename_i hcolumn
  split at hbind
  · cases hbind
  rename_i htwice
  obtain ⟨kind, hkind, hbind⟩ := bind_eq_ok.mp hbind
  obtain rfl := Except.ok.inj hbind
  constructor
  · intro slot hslot
    rcases List.mem_append.mp hslot with hold | hnew
    · have hbound := h.bound slot hold
      exact ⟨hbound.described, hbound.kind, hbound.rowSize, hbound.places⟩
    · obtain rfl := List.mem_singleton.mp hnew
      refine ⟨?_, hkind, rfl, hplaces⟩
      split_ifs at hcolumn
      exact hcolumn
  · rw [List.map_append, List.nodup_append]
    refine ⟨h.distinct, by simp, ?_⟩
    intro p hp q hq hpq
    obtain ⟨slot, hslot, rfl⟩ := List.mem_map.mp hp
    obtain rfl : q = index := by simpa using hq
    exact htwice (List.any_eq_true.mpr ⟨slot, hslot, by simpa using hpq⟩)

theorem ColumnSlot.Refilled.bound {s s' : Statement V} {slot slot' : ColumnSlot}
    (h : slot.Refilled slot') (hdescribed : s'.described = s.described)
    (hsize : s'.rowArraySize = s.rowArraySize) (hbound : slot.Bound s) : slot'.Bound s' where
  described := by rw [h.position, h.described, hdescribed, hbound.described]
  kind := by rw [h.requested, h.described, h.kind, hbound.kind]
  rowSize := by rw [h.rowSize, h.kind, h.described, h.requested, hbound.rowSize]
  places := by rw [h.places, hbound.places, hsize]

theorem map_position {slots slots' : List ColumnSlot}
    (h : List.Forall₂ ColumnSlot.Refilled slots slots') :
    slots'.map ColumnSlot.position = slots.map ColumnSlot.position := by
  induction h with
  | nil => rfl
  | cons hone _ ih => rw [List.map_cons, List.map_cons, hone.position, ih]

theorem Statement.Ready.refilled {s s' : Statement V} (h : s.Ready)
    (hdescribed : s'.described = s.described) (hsize : s'.rowArraySize = s.rowArraySize)
    (hslots : List.Forall₂ ColumnSlot.Refilled s.slots s'.slots) : s'.Ready := by
  have hpositions := map_position hslots
  refine ⟨fun slot' hslot' => ?_, hpositions ▸ h.distinct⟩
  obtain ⟨slot, hslot, hone⟩ := exists_of_forall₂ hslots hslot'
  exact hone.bound hdescribed hsize (h.bound slot hslot)

/-- A row of a column that has been fetched: what was staged of its cell, and the place that it was
filled from and into. -/
structure ColumnSlot.Row (slot : ColumnSlot) (row : ℕ) (cell : Cell V) (stage : Staged)
    (before after : Place slot.requested) (wide : Bool) : Prop where
  defined : oci.define slot.described slot.kind slot.rowSize cell = some stage
  staged : slot.staged[row]? = some stage
  filled : fillCell oci slot.rowSize stage slot.requested before = .ok (after, wide)
  place : slot.places[row]? = some after
  wideRow : slot.wideRows[row]? = some wide

theorem fillRows_spec {rowSize : ℕ} {r : Requested} {stages : List Staged}
    {places places' : List (Place r)} {wides : List Bool}
    (h : fillRows oci rowSize r stages places = .ok (places', wides)) :
    places'.length = places.length ∧ ∀ (row : ℕ) staged place, stages[row]? = some staged →
      places[row]? = some place → ∃ (place' : Place r) (wide : Bool),
        fillCell oci rowSize staged r place = .ok (place', wide) ∧
        places'[row]? = some place' ∧ wides[row]? = some wide := by
  induction stages generalizing places places' wides with
  | nil =>
    rw [fillRows] at h
    · obtain ⟨rfl, rfl⟩ := Prod.mk.inj (Except.ok.inj h)
      exact ⟨rfl, by simp⟩
    · simp
  | cons staged stages ih =>
    cases places with
    | nil =>
      rw [fillRows] at h
      · obtain ⟨rfl, rfl⟩ := Prod.mk.inj (Except.ok.inj h)
        exact ⟨rfl, by simp⟩
      · simp
    | cons place places =>
      rw [fillRows] at h
      obtain ⟨filled, hfilled, h⟩ := bind_eq_ok.mp h
      obtain ⟨rest, hrest, h⟩ := bind_eq_ok.mp h
      obtain ⟨rfl, rfl⟩ := Prod.mk.inj (Except.ok.inj h)
      obtain ⟨hlength, hrows⟩ := ih hrest
      refine ⟨by simp [hlength], fun row staged' place' hstaged hplace => ?_⟩
      cases row with
      | zero =>
        obtain rfl := Option.some.inj hstaged
        obtain rfl := Option.some.inj hplace
        exact ⟨filled.1, filled.2, hfilled, rfl, rfl⟩
      | succ row => exact hrows row staged' place' hstaged hplace

def cellAt (block : List (List (Cell V))) (row position : ℕ) : Option (Cell V) :=
  block[row]? >>= fun cells => cells[position - 1]?

theorem stage_spec {slot slot' : ColumnSlot} {block : List (List (Cell V))}
    (h : slot.stage oci block = .ok slot') :
    (∃ staged, slot' = { slot with staged }) ∧
    ∀ row cell, cellAt block row slot.position = some cell → ∃ staged,
      oci.define slot.described slot.kind slot.rowSize cell = some staged ∧
      slot'.staged[row]? = some staged := by
  obtain ⟨staged, hstaged, h⟩ := bind_eq_ok.mp h
  obtain rfl := Except.ok.inj h
  refine ⟨⟨staged, rfl⟩, fun row cell hcell => ?_⟩
  have hall := forall₂_of_mapM hstaged
  obtain ⟨cells, hcells, hcell⟩ := Option.bind_eq_some_iff.mp hcell
  obtain ⟨hlt, hget⟩ := List.getElem?_eq_some_iff.mp hcells
  have hlt' : row < staged.length := hall.length_eq ▸ hlt
  have hone := hall.get hlt hlt'
  rw [List.get_eq_getElem, List.get_eq_getElem, hget] at hone
  simp only [hcell] at hone
  split at hone
  · rename_i found hdefine
    exact ⟨found, hdefine, by rw [List.getElem?_eq_getElem hlt', Except.ok.inj hone]⟩
  · cases hone

theorem materialize_spec {slot slot' : ColumnSlot} (h : slot.materialize oci = .ok slot') :
    slot.Refilled slot' ∧ ∀ row cell staged,
      oci.define slot.described slot.kind slot.rowSize cell = some staged →
      slot.staged[row]? = some staged → row < slot.places.length →
      ∃ before after wide, slot'.Row oci row cell staged before after wide := by
  obtain ⟨filled, hfilled, h⟩ := bind_eq_ok.mp h
  obtain rfl := Except.ok.inj h
  obtain ⟨hlength, hrows⟩ := fillRows_spec oci hfilled
  refine ⟨⟨rfl, rfl, rfl, rfl, rfl, hlength⟩, fun row cell staged hdefine hstaged hrow => ?_⟩
  have hplace := List.getElem?_eq_getElem hrow
  obtain ⟨after, wide, hcell, hafter, hwide⟩ := hrows row staged _ hstaged hplace
  exact ⟨slot.places[row], after, wide, hdefine, hstaged, hcell, hafter, hwide⟩

/-- The rows that a fetch has brought. -/
def Statement.block (s : Statement V) : List (List (Cell V)) :=
  (s.result.drop (s.cursor - s.rowsFetched)).take s.rowsFetched

theorem fetch_spec {s s' : Statement V} (hready : s.Ready) (h : s.fetch oci = .ok (some s')) :
    s'.Ready ∧ ∀ slot ∈ s'.slots, ∀ row cell, cellAt s'.block row slot.position = some cell →
      ∃ staged before after wide, slot.Row oci row cell staged before after wide := by
  unfold Statement.fetch at h
  split at h
  · cases h
  obtain ⟨stages, hstages, h⟩ := bind_eq_ok.mp h
  obtain ⟨slots, hslots, h⟩ := bind_eq_ok.mp h
  obtain rfl := Option.some.inj (Except.ok.inj h)
  have hstaged := forall₂_of_mapM hstages
  have hfilled := forall₂_of_mapM hslots
  have hmiddle : Statement.Ready { s with slots := stages } := by
    refine @Statement.Ready.refilled V s { s with slots := stages } hready rfl rfl ?_
    refine hstaged.imp fun slot slot' hone => ?_
    obtain ⟨staged, rfl⟩ := (stage_spec oci hone).1
    exact ⟨rfl, rfl, rfl, rfl, rfl, rfl⟩
  constructor
  · exact Statement.Ready.refilled hmiddle rfl rfl (hfilled.imp fun _ _ hone =>
      (materialize_spec oci hone).1)
  · intro slot hslot row cell hcell
    obtain ⟨stage, hstage, hmaterialize⟩ := exists_of_forall₂ hfilled hslot
    obtain ⟨start, hstart, hdefine⟩ := exists_of_forall₂ hstaged hstage
    obtain ⟨⟨staged, rfl⟩, hcells⟩ := stage_spec oci hdefine
    obtain ⟨hrefilled, hrows⟩ := materialize_spec oci hmaterialize
    have hblock : Statement.block { s with
        cursor := s.cursor + s.nextBlock.length, rowsFetched := s.nextBlock.length, slots } =
        s.nextBlock := by
      rw [Statement.block, Nat.add_sub_cancel]
      exact (List.prefix_iff_eq_take.mp (List.take_prefix _ _)).symm
    rw [hblock, hrefilled.position] at hcell
    obtain ⟨stage, hdefined, hstaged⟩ := hcells row cell hcell
    have hlt : row < start.places.length := by
      rw [(hready.bound start hstart).places]
      obtain ⟨cells, hcells, -⟩ := Option.bind_eq_some_iff.mp hcell
      obtain ⟨hlt, -⟩ := List.getElem?_eq_some_iff.mp hcells
      exact lt_of_lt_of_le hlt (List.length_take_le _ _)
    obtain ⟨before, after, wide, hrow⟩ := hrows row cell stage hdefined hstaged hlt
    exact ⟨stage, before, after, wide, hrow⟩

theorem Reached.ready {s : Statement V} (h : Reached oci s) : s.Ready := by
  induction h with
  | executed => exact ⟨by simp [Statement.executed], by simp [Statement.executed]⟩
  | bound _ hplaces hbind ih => exact ready_bindColumn ih hplaces hbind
  | fetched _ hfetch ih => exact (fetch_spec oci ih hfetch).1
  | failed _ _ htorn ih => exact ih.refilled htorn.described htorn.rowArraySize htorn.slots

theorem Statement.Ready.wideSlot {s : Statement V} (h : s.Ready) {slot : ColumnSlot}
    (hslot : slot ∈ s.slots) : s.wideSlot slot.position = .ok slot := by
  have hfind : s.slots.find? (fun other => other.position == slot.position) = some slot := by
    have hdistinct := h.distinct
    generalize s.slots = slots at hslot hdistinct
    induction slots with
    | nil => cases hslot
    | cons other slots ih =>
      obtain ⟨hnot, hrest⟩ := List.nodup_cons.mp hdistinct
      rcases List.mem_cons.mp hslot with rfl | hmem
      · simp
      · have hne : other.position ≠ slot.position := fun heq =>
          hnot (heq ▸ List.mem_map_of_mem hmem)
        rw [List.find?_cons_of_neg (by simpa using hne)]
        exact ih hmem hrest
  rw [Statement.wideSlot, hfind]

end

end Uniorm.Oracle
