import TraceAutomata.Proofs.Store.Write

/-!
What is seen of a store below one attribute. Writes below it change this view in a way that
depends on nothing else in the store, and they leave alone all that is outside.
-/

namespace TraceAutomata

namespace StoreM

def after (m : StoreM Unit) (st : Store) : Store :=
  match m st with
  | .ok _ st => st
  | .error _ st => st

def accepts (m : StoreM Unit) (st : Store) : Bool :=
  match m st with
  | .ok _ _ => true
  | .error _ _ => false

end StoreM

/-- A value that is written at a time, at a path below some attribute. -/
structure Write where
  path : List String
  time : Int64
  value : Value

abbrev View := List String → Option (List Interval)

namespace View

def intervalsAt (v : View) (path : List String) : List Interval :=
  (v path).getD []

/-- The view with another history at a path, to which attributes lead. -/
def set (v : View) (path : List String) (log : List Interval) : View := fun p =>
  if p = path then some log
  else if p <+: path then some (v.intervalsAt p)
  else v p

def write (v : View) (w : Write) : View × Bool :=
  match Interval.extend? (v.intervalsAt w.path) w.time w.value with
  | some log => (v.set w.path log, true)
  | none => (v.set w.path (v.intervalsAt w.path), false)

/-- The view after several writes, of which none follows a refused one. -/
def writeAll : View → List Write → View × Bool
  | v, [] => (v, true)
  | v, w :: rest =>
      match v.write w with
      | (v, true) => v.writeAll rest
      | (v, false) => (v, false)

/-- The view after groups of writes. A refused write only ends its group. -/
def record (v : View) (groups : List (List Write)) : View :=
  groups.foldl (fun v writes => (v.writeAll writes).1) v

def accepts : View → List (List Write) → Bool
  | _, [] => true
  | v, writes :: rest => (v.writeAll writes).2 && accepts (v.writeAll writes).1 rest

theorem intervalsAt_set (v : View) (path : List String) (log : List Interval)
    (p : List String) :
    (v.set path log).intervalsAt p = if p = path then log else v.intervalsAt p := by
  rw [intervalsAt, set]
  split
  · rfl
  · split
    · rfl
    · rfl

theorem write_induction {P : List Interval → Prop} {path : List String} (v : View) (w : Write)
    (hw : w.path = path → ∀ log log', P log →
      Interval.extend? log w.time w.value = some log' → P log')
    (h : P (v.intervalsAt path)) : P ((v.write w).1.intervalsAt path) := by
  rw [write]
  cases hlog : Interval.extend? (v.intervalsAt w.path) w.time w.value with
  | none =>
      simp only [intervalsAt_set]
      split
      · next heq => exact heq ▸ h
      · exact h
  | some log =>
      simp only [intervalsAt_set]
      split
      · next heq =>
        subst heq
        exact hw rfl _ _ h hlog
      · exact h

theorem writeAll_induction {P : List Interval → Prop} {path : List String} (v : View)
    (writes : List Write)
    (hw : ∀ w ∈ writes, w.path = path → ∀ log log', P log →
      Interval.extend? log w.time w.value = some log' → P log')
    (h : P (v.intervalsAt path)) : P ((v.writeAll writes).1.intervalsAt path) := by
  induction writes generalizing v with
  | nil => exact h
  | cons w rest ih =>
      have hfirst := write_induction v w (hw w List.mem_cons_self) h
      rw [writeAll]
      rcases hres : v.write w with ⟨v', _ | _⟩
      · rw [hres] at hfirst
        exact hfirst
      · rw [hres] at hfirst
        exact ih v' (fun w hmem => hw w (List.mem_cons_of_mem _ hmem)) hfirst

theorem record_induction {P : List Interval → Prop} {path : List String} (v : View)
    (groups : List (List Write))
    (hw : ∀ writes ∈ groups, ∀ w ∈ writes, w.path = path → ∀ log log', P log →
      Interval.extend? log w.time w.value = some log' → P log')
    (h : P (v.intervalsAt path)) : P ((v.record groups).intervalsAt path) := by
  induction groups generalizing v with
  | nil => exact h
  | cons writes rest ih =>
      apply ih
      · intro ws hws
        exact hw ws (List.mem_cons_of_mem _ hws)
      · exact writeAll_induction v writes (hw writes List.mem_cons_self) h

end View

namespace Store

def below (st : Store) (base : List String) : View := fun p => st.historyAt? (base ++ p)

theorem intervalsAt_below (st : Store) (base p : List String) :
    (st.below base).intervalsAt p = st.intervalsAt (base ++ p) := rfl

/-- Only what is below an attribute has changed. -/
structure Recorded (st : Store) (base : List String) (v : View) (st' : Store) : Prop
    extends st.Extends st' where
  below : st'.below base = v
  outside : ∀ p, ¬ base <+: p → st'.historyAt? p = st.historyAt? p
  endTime_le : st.endTime ≤ st'.endTime

namespace Recorded

variable {st st' st'' : Store} {base : List String} {v v' : View}

theorem refl (t : st.Tree) (base : List String) : st.Recorded base (st.below base) st :=
  ⟨.refl t, rfl, fun _ _ => rfl, Int64.le_refl _⟩

theorem trans (h : st.Recorded base v st') (h' : st'.Recorded base v' st'') :
    st.Recorded base v' st'' where
  toExtends := h.toExtends.trans h'.toExtends
  below := h'.below
  outside p hp := (h'.outside p hp).trans (h.outside p hp)
  endTime_le := Int64.le_trans h.endTime_le h'.endTime_le

end Recorded

theorem Wrote.recorded {st st' : Store} {base path : List String} {subtree : Quark}
    {log : List Interval} (t : st.Tree) (hq : st.find? root base = some subtree)
    (h : st.Wrote (base ++ path) log st') (hend : st.endTime ≤ st'.endTime) :
    st.Recorded base ((st.below base).set path log) st' where
  toExtends := h.toExtends
  below := by
    funext p
    rw [Store.below, h.historyAt?, View.set]
    by_cases hp : p = path
    · simp [hp]
    · by_cases hprefix : p <+: path
      · simp [hp, hprefix, View.intervalsAt, Store.below, Store.intervalsAt]
      · simp [hp, hprefix, Store.below]
  outside p hp :=
    h.historyAt?_of_outside t (by simp [hq]) (List.prefix_append base path) hp
  endTime_le := hend

end Store

namespace History

open Store

/-- Writes below a subtree, one after the other up to the first that is refused. -/
def writeAll (subtree : Quark) (writes : List Write) : StoreM Unit :=
  writes.forM fun w => write subtree w.time w.path w.value

theorem writeAll_cons (subtree : Quark) (w : Write) (rest : List Write) (st : Store) :
    writeAll subtree (w :: rest) st =
      match write subtree w.time w.path w.value st with
      | .ok _ st => writeAll subtree rest st
      | .error e st => .error e st := by
  rw [writeAll, List.forM_eq_forM, List.forM_cons]
  simp only [bind, EStateM.bind]
  cases write subtree w.time w.path w.value st <;> rfl

theorem write_eq_writeAll (subtree : Quark) (time : Int64) (path : List String)
    (value : Value) : write subtree time path value = writeAll subtree [⟨path, time, value⟩] := by
  funext st
  rw [writeAll_cons]
  cases write subtree time path value st <;> rfl

/-- Writes below a subtree change what is seen from it as they change the view, and nothing
else. -/
theorem writeAll_spec {st : Store} (t : st.Tree) (hl : st.lockedName = none)
    {base : List String} {subtree : Quark} (hq : st.find? root base = some subtree)
    (writes : List Write) :
    st.Recorded base ((st.below base).writeAll writes).1 ((writeAll subtree writes).after st) ∧
      (writeAll subtree writes).accepts st = ((st.below base).writeAll writes).2 ∧
      (((st.below base).writeAll writes).2 = true →
        ∀ w ∈ writes, w.time ≤ ((writeAll subtree writes).after st).endTime) ∧
      ((∀ w ∈ writes, w.time ≤ st.endTime) →
        ((writeAll subtree writes).after st).endTime = st.endTime) := by
  induction writes generalizing st with
  | nil => exact ⟨.refl t base, rfl, by simp, fun _ => rfl⟩
  | cons w rest ih =>
      have hwrite := write_spec t hl hq w.time w.path w.value
      rw [StoreM.after, StoreM.accepts, writeAll_cons, View.writeAll, View.write,
        intervalsAt_below]
      cases hlog : Interval.extend? (st.intervalsAt (base ++ w.path)) w.time w.value with
      | none =>
          rw [hlog] at hwrite
          obtain ⟨e, st', heq, hwrote, hend⟩ := hwrite
          rw [heq]
          exact ⟨hwrote.recorded t hq (hend ▸ Int64.le_refl _), rfl, by simp, fun _ => hend⟩
      | some log =>
          rw [hlog] at hwrite
          obtain ⟨st', heq, hwrote, hend⟩ := hwrite
          have hle : st.endTime ≤ st'.endTime := hend ▸ endTime_le_extendTo st w.time
          have hfirst := hwrote.recorded t hq hle
          obtain ⟨hrec, haccept, hlater, hsame⟩ :=
            ih hfirst.tree (hfirst.lockedName.trans hl) (hfirst.find? _ _ hq)
          rw [heq]
          rw [hfirst.below] at hrec haccept hlater
          refine ⟨hfirst.trans hrec, haccept, fun hok v hv => ?_, fun htimes => ?_⟩
          · rcases List.mem_cons.mp hv with rfl | hv
            · have hw : v.time ≤ st'.endTime := hend ▸ le_endTime_extendTo st v.time
              exact Int64.le_trans hw hrec.endTime_le
            · exact hlater hok v hv
          · have hend' : st'.endTime = st.endTime := by
              rw [hend, endTime_extendTo, if_neg]
              exact Int64.not_lt.mpr (htimes w List.mem_cons_self)
            rw [← hend']
            refine hsame fun v hv => ?_
            rw [hend']
            exact htimes v (List.mem_cons_of_mem _ hv)

def recordAll (subtree : Quark) (groups : List (List Write)) (st : Store) : Store :=
  groups.foldl (fun st writes => (writeAll subtree writes).after st) st

theorem recordAll_spec {st : Store} (t : st.Tree) (hl : st.lockedName = none)
    {base : List String} {subtree : Quark} (hq : st.find? root base = some subtree)
    (groups : List (List Write)) :
    st.Recorded base ((st.below base).record groups) (recordAll subtree groups st) ∧
      ((st.below base).accepts groups = true →
        ∀ writes ∈ groups, ∀ w ∈ writes, w.time ≤ (recordAll subtree groups st).endTime) ∧
      ((∀ writes ∈ groups, ∀ w ∈ writes, w.time ≤ st.endTime) →
        (recordAll subtree groups st).endTime = st.endTime) := by
  induction groups generalizing st with
  | nil => exact ⟨.refl t base, by simp, fun _ => rfl⟩
  | cons writes rest ih =>
      obtain ⟨hfirst, -, hlater, hsame⟩ := writeAll_spec t hl hq writes
      obtain ⟨hrec, hlater', hsame'⟩ :=
        ih hfirst.tree (hfirst.lockedName.trans hl) (hfirst.find? _ _ hq)
      rw [hfirst.below] at hrec hlater'
      refine ⟨hfirst.trans hrec, fun hok => ?_, fun htimes => ?_⟩
      · rw [View.accepts, Bool.and_eq_true] at hok
        refine List.forall_mem_cons.mpr ⟨fun w hw => ?_, hlater' hok.2⟩
        exact Int64.le_trans (hlater hok.1 w hw) hrec.endTime_le
      · obtain ⟨hhead, hrest⟩ := List.forall_mem_cons.mp htimes
        have hend := hsame hhead
        rw [← hend]
        refine hsame' fun ws hws w hw => ?_
        rw [hend]
        exact hrest ws hws w hw

end History

end TraceAutomata
