import TraceAutomata.Proofs.Store.Ancestry

/-!
Calls on a store that is changed in place, step after step. What one step has changed stays even if
a later one is refused. Nevertheless a refused call changes nothing, since it is refused before its
first change, and so it does the same as a call that gives a new store or none.
-/

namespace TraceAutomata

namespace StoreM

variable {α β : Type} {m : StoreM α} {f : α → StoreM β} {st st' : Store}

theorem bind_of_ok {a : α} (h : m st = .ok a st') : (m >>= f) st = f a st' := by
  change EStateM.bind m f st = _
  rw [EStateM.bind, h]

theorem bind_of_error {e : StoreError} (h : m st = .error e st') :
    (m >>= f) st = .error e st' := by
  change EStateM.bind m f st = _
  rw [EStateM.bind, h]

end StoreM

namespace InPlace

def look {α : Type} (read : Store → Except StoreError α) : StoreM α := fun st =>
  match read st with
  | .ok a => .ok a st
  | .error e => .error e st

def modifyNode (q : Quark) (f : Node → Node) : StoreM Unit := do
  let _ ← look (·.node q)
  modify fun st => { st with nodes := st.nodes.modify q f }

/-- The child of an attribute under a name. If there is none, its node is added first, and only then
the parent learns of it. -/
def childOrCreate (parent : Quark) (name : String) : StoreM Quark := do
  match (← look (·.node parent)).children.find? name with
  | some child => return child
  | none =>
      let child := (← get).size
      modify fun st => { st with nodes := st.nodes.push ⟨name, some parent, ∅, #[]⟩ }
      modifyNode parent fun n => { n with children := n.children.insert name child }
      return child

/-- The attribute that a path leads to. Each segment on the way is created before the next one is
looked at. -/
def create (base : Quark) (path : List String) : StoreM Quark :=
  path.foldlM childOrCreate base

def addInterval (q : Quark) (i : Interval) : StoreM Unit :=
  modifyNode q fun n => { n with intervals := n.intervals.push i }

/-- Adds a value to a history with the given last interval, unless it holds already. -/
def append (q : Quark) (time : Int64) (value : Value) : Option Interval → StoreM Unit
  | some last => do
      if time < last.start then
        throw (.timeOrdering (← look (·.fullPath q)) last.start time)
      else if last.value.coincides value then pure ()
      else addInterval q ⟨time, value⟩
  | none => if value.isNull then pure () else addInterval q ⟨time, value⟩

def write (q : Quark) (time : Int64) (value : Value) : StoreM Unit := do
  append q time value (← look (·.node q)).intervals.back?
  modify (·.extendTo time)

end InPlace

namespace Store

open InPlace

variable {st : Store} {q : Quark}

theorem look_of_ok {α : Type} {read : Store → Except StoreError α} {a : α} (h : read st = .ok a) :
    look read st = .ok a st := by
  rw [look, h]

theorem look_of_error {α : Type} {read : Store → Except StoreError α} {e : StoreError}
    (h : read st = .error e) : look read st = .error e st := by
  rw [look, h]

theorem node_of_lt (hq : q < st.nodes.size) : st.node q = .ok st.nodes[q] :=
  (node_eq_ok_iff st q _).mpr (Array.getElem?_eq_getElem hq)

theorem node_of_not_lt (hq : ¬ q < st.nodes.size) : st.node q = .error (.invalidQuark q) := by
  rw [node, Array.getElem?_eq_none (Nat.not_lt.mp hq)]

theorem modifyNode_of_lt (hq : q < st.nodes.size) (f : Node → Node) :
    modifyNode q f st = .ok () { st with nodes := st.nodes.modify q f } := by
  rw [modifyNode, StoreM.bind_of_ok (look_of_ok (node_of_lt hq))]
  rfl

theorem childOrCreate_of_child? {name : String} {c : Quark} (h : st.child? q name = some c) :
    childOrCreate q name st = .ok c st := by
  obtain ⟨n, hn, hchild⟩ := Option.bind_eq_some_iff.mp h
  rw [childOrCreate, StoreM.bind_of_ok (look_of_ok ((node_eq_ok_iff st q n).mpr hn)), hchild]
  rfl

theorem childOrCreate_of_missing {name : String} (hq : q < st.nodes.size)
    (h : st.child? q name = none) :
    childOrCreate q name st = .ok st.size (st.addChild q name) := by
  let added : Store := { st with nodes := st.nodes.push ⟨name, some q, ∅, #[]⟩ }
  let register (n : Node) : Node := { n with children := n.children.insert name st.size }
  have hadded : q < added.nodes.size :=
    Nat.lt_of_lt_of_eq (Nat.lt_succ_of_lt hq) (Array.size_push _).symm
  have hnodes : added.nodes.modify q register = (st.addChild q name).nodes := by
    apply Array.ext_getElem?
    intro c
    rw [getElem?_addChild, Array.getElem?_modify, Array.getElem?_push]
    by_cases hc : q = c
    · subst hc
      rw [if_neg (Nat.ne_of_lt hq), if_neg (Nat.ne_of_lt hq)]
      rfl
    · rw [if_neg hc, if_neg hc]
  have hregister : modifyNode q register added = .ok () (st.addChild q name) := by
    rw [modifyNode_of_lt hadded, hnodes]
    rfl
  rw [child?, Array.getElem?_eq_getElem hq, Option.bind_some] at h
  rw [childOrCreate, StoreM.bind_of_ok (look_of_ok (node_of_lt hq)), h]
  exact StoreM.bind_of_ok hregister

theorem childOrCreate_of_not_lt (hq : ¬ q < st.nodes.size) (name : String) :
    childOrCreate q name st = .error (.invalidQuark q) st :=
  StoreM.bind_of_error (look_of_error (node_of_not_lt hq))

/-- Attributes are created in place exactly as they are at once. Each of those on the way is there
when the next one is created below it, so after the first one nothing is refused. -/
theorem create_eq (t : st.Tree) (base : Quark) (path : List String) :
    create base path st = StoreM.ensure base path st := by
  induction path generalizing st base with
  | nil => rfl
  | cons name rest ih =>
      rw [create, List.foldlM_cons, StoreM.ensure]
      by_cases hbase : base < st.nodes.size
      · cases hchild : st.child? base name with
        | some c =>
            rw [StoreM.bind_of_ok (childOrCreate_of_child? hchild), ensure_of_child? hchild]
            exact ih t c
        | none =>
            have t' := (extends_addChild t hbase hchild).tree
            have hadded : st.size < (st.addChild base name).nodes.size := by
              rw [← size, size_addChild]
              exact Nat.lt_succ_self _
            obtain ⟨st', c, hensure, -⟩ := ensure_of_lt t' hadded rest
            have hrest := ih t' st.size
            rw [StoreM.ensure, hensure] at hrest
            rw [StoreM.bind_of_ok (childOrCreate_of_missing hbase hchild),
              ensure_of_missing hbase hchild, hensure]
            exact hrest
      · rw [StoreM.bind_of_error (childOrCreate_of_not_lt hbase name), ensure,
          node_of_not_lt hbase]
        rfl

theorem addInterval_of_lt (hq : q < st.nodes.size) (i : Interval) :
    InPlace.addInterval q i st = .ok () (st.addInterval q i) :=
  modifyNode_of_lt hq _

theorem write_of_back? (hl : st.lockedName = none) (hq : q < st.nodes.size) (time : Int64)
    (value : Value) :
    st.write q time value = match st.nodes[q].intervals.back? with
      | some last =>
          if time < last.start then
            .error (.timeOrdering (pathText (st.segments q)) last.start time)
          else if last.value.coincides value then .ok (st.extendTo time)
          else .ok ((st.addInterval q ⟨time, value⟩).extendTo time)
      | none =>
          if value.isNull then .ok (st.extendTo time)
          else .ok ((st.addInterval q ⟨time, value⟩).extendTo time) := by
  rw [write, node_of_lt hq]
  simp only [bind, Except.bind, isLocked_eq_false hl, Bool.false_eq_true, if_false]
  rfl

theorem append_spec (hl : st.lockedName = none) (hq : q < st.nodes.size) (time : Int64)
    (value : Value) :
    let added := append q time value st.nodes[q].intervals.back? st
    (∃ st', added = .ok () st' ∧ st.write q time value = .ok (st'.extendTo time)) ∨
      ∃ e, added = .error e st ∧ st.write q time value = .error e := by
  have hpath : st.fullPath q = .ok (pathText (st.segments q)) := by
    rw [fullPath, node_of_lt hq]
    rfl
  rw [write_of_back? hl hq]
  cases st.nodes[q].intervals.back? with
  | none =>
      simp only [append]
      split
      · exact .inl ⟨st, rfl, rfl⟩
      · exact .inl ⟨_, addInterval_of_lt hq _, rfl⟩
  | some last =>
      simp only [append]
      split
      · exact .inr ⟨_, StoreM.bind_of_ok (look_of_ok hpath), rfl⟩
      · split
        · exact .inl ⟨st, rfl, rfl⟩
        · exact .inl ⟨_, addInterval_of_lt hq _, rfl⟩

theorem write_inPlace_eq (hl : st.lockedName = none) (q : Quark) (time : Int64) (value : Value) :
    InPlace.write q time value st = StoreM.write q time value st := by
  rw [InPlace.write, StoreM.write]
  by_cases hq : q < st.nodes.size
  · rw [StoreM.bind_of_ok (look_of_ok (node_of_lt hq))]
    rcases append_spec hl hq time value with ⟨st', hadded, hwrite⟩ | ⟨e, hadded, hwrite⟩
    · rw [StoreM.bind_of_ok hadded, hwrite]
      rfl
    · rw [StoreM.bind_of_error hadded, hwrite]
  · rw [StoreM.bind_of_error (look_of_error (node_of_not_lt hq)), write_of_not_lt hq]

end Store

end TraceAutomata
