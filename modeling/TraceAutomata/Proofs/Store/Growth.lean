import TraceAutomata.Proofs.Store.Tree
import TraceAutomata.Store.Snapshot

namespace TraceAutomata.Store

def historyAt? (st : Store) (path : List String) : Option (List Interval) :=
  (st.find? root path).bind fun q => st.nodes[q]?.map fun n => n.intervals.toList

def intervalsAt (st : Store) (path : List String) : List Interval :=
  (st.historyAt? path).getD []

/-- A later store has all attributes of an earlier one in their places, and the same start. -/
structure Extends (st st' : Store) : Prop where
  tree : st'.Tree
  find? : ∀ path q, st.find? root path = some q → st'.find? root path = some q
  startTime : st'.startTime = st.startTime
  lockedName : st'.lockedName = st.lockedName

namespace Extends

variable {st st' st'' : Store}

theorem refl (t : st.Tree) : st.Extends st := ⟨t, fun _ _ h => h, rfl, rfl⟩

theorem trans (h : st.Extends st') (h' : st'.Extends st'') : st.Extends st'' where
  tree := h'.tree
  find? path q hq := h'.find? path q (h.find? path q hq)
  startTime := h'.startTime.trans h.startTime
  lockedName := h'.lockedName.trans h.lockedName

end Extends

theorem historyAt?_of_find? {st : Store} {path : List String} {q : Quark} {n : Node}
    (hq : st.find? root path = some q) (hn : st.nodes[q]? = some n) :
    st.historyAt? path = some n.intervals.toList := by
  simp [historyAt?, hq, hn]

theorem intervalsAt_of_find? {st : Store} {path : List String} {q : Quark} {n : Node}
    (hq : st.find? root path = some q) (hn : st.nodes[q]? = some n) :
    st.intervalsAt path = n.intervals.toList := by
  rw [intervalsAt, historyAt?_of_find? hq hn, Option.getD_some]

theorem Tree.exists_node {st : Store} (t : st.Tree) {path : List String} {q : Quark}
    (hq : st.find? root path = some q) : ∃ n, st.nodes[q]? = some n :=
  ⟨_, Array.getElem?_eq_getElem (t.find?_lt hq)⟩

theorem Tree.historyAt?_isSome_iff {st : Store} (t : st.Tree) (path : List String) :
    (st.historyAt? path).isSome ↔ (st.find? root path).isSome := by
  cases hq : st.find? root path with
  | none => simp [historyAt?, hq]
  | some q =>
      obtain ⟨n, hn⟩ := t.exists_node hq
      simp [historyAt?_of_find? hq hn]

theorem find?_isSome_of_le {st : Store} {q : Quark} {path path' : List String}
    (hp : path <+: path') (h : (st.find? q path').isSome) : (st.find? q path).isSome := by
  obtain ⟨rest, rfl⟩ := hp
  rw [find?_append] at h
  cases hq : st.find? q path with
  | none => simp [hq] at h
  | some c => rfl

section AddChild

variable {st : Store} {q : Quark} {name : String}

theorem getElem?_addChild (st : Store) (q : Quark) (name : String) (c : Quark) :
    (st.addChild q name).nodes[c]? =
      if c = st.nodes.size then some ⟨name, some q, ∅, #[]⟩
      else if q = c then
        st.nodes[c]?.map fun n => { n with children := n.children.insert name st.nodes.size }
      else st.nodes[c]? := by
  simp only [addChild, Array.getElem?_push, Array.size_modify, Array.getElem?_modify]

theorem child?_addChild (hq : q < st.nodes.size) (c : Quark) (other : String) :
    (st.addChild q name).child? c other =
      if c = q ∧ other = name then some st.nodes.size else st.child? c other := by
  rw [child?, getElem?_addChild]
  by_cases hc : c = st.nodes.size
  · have hcq : c ≠ q := hc ▸ Nat.ne_of_gt hq
    subst hc
    simp [hcq, Tree.child?_size]
  · rw [if_neg hc]
    by_cases hcq : q = c
    · subst hcq
      rw [if_pos rfl, child?, Array.getElem?_eq_getElem hq]
      simp [Dict.find?_insert]
    · simp [child?, hcq, Ne.symm hcq]

theorem find?_addChild (t : st.Tree) {base : List String} (hq : st.find? root base = some q)
    (hnew : st.child? q name = none) (path : List String) :
    (st.addChild q name).find? root path =
      if path = base ++ [name] then some st.nodes.size else st.find? root path := by
  have hlt := t.find?_lt hq
  induction path using List.reverseRecOn with
  | nil => simp
  | append_singleton front last ih =>
      rw [find?_concat, find?_concat, ih]
      by_cases hfront : front = base ++ [name]
      · have hnot : ¬ front ++ [last] = base ++ [name] := by
          intro h
          have := congrArg List.length h
          simp [hfront] at this
        rw [if_pos hfront, if_neg hnot, hfront, find?_concat, hq]
        simp [hnew, child?_addChild hlt, Tree.child?_size, Nat.ne_of_gt hlt]
      · rw [if_neg hfront]
        cases hc : st.find? root front with
        | none =>
            have hnot : ¬ front ++ [last] = base ++ [name] := by
              intro h
              obtain ⟨rfl, -⟩ := List.append_inj' h rfl
              rw [hq] at hc
              cases hc
            simp [hnot]
        | some c =>
            have hiff : (c = q ∧ last = name) ↔ front ++ [last] = base ++ [name] := by
              constructor
              · rintro ⟨rfl, rfl⟩
                rw [t.find?_injective hc hq]
              · intro h
                obtain ⟨rfl, hlast⟩ := List.append_inj' h rfl
                exact ⟨Option.some.inj (hc.symm.trans hq), by simpa using hlast⟩
            simp [child?_addChild hlt, hiff]

theorem tree_addChild (t : st.Tree) {base : List String} (hq : st.find? root base = some q)
    (hnew : st.child? q name = none) : (st.addChild q name).Tree where
  root_node := by
    obtain ⟨n, hn, hp⟩ := t.root_node
    have hroot : root ≠ st.nodes.size := Nat.ne_of_lt t.root_lt
    rw [getElem?_addChild, if_neg hroot, hn]
    split
    · exact ⟨_, rfl, hp⟩
    · exact ⟨n, rfl, hp⟩
  of_child p other c h := by
    have hlt := t.find?_lt hq
    rw [child?_addChild hlt] at h
    rw [getElem?_addChild]
    split at h
    · next heq =>
      obtain ⟨rfl, rfl⟩ := heq
      obtain rfl := Option.some.inj h
      exact ⟨hlt, by simp⟩
    · obtain ⟨hpc, n, hn, hp, hname⟩ := t.of_child p other c h
      have hc : c ≠ st.nodes.size := Nat.ne_of_lt (t.child_lt h)
      refine ⟨hpc, ?_⟩
      rw [if_neg hc, hn]
      split
      · exact ⟨_, rfl, hp, hname⟩
      · exact ⟨n, rfl, hp, hname⟩
  of_parent c n hn hc := by
    have hlt := t.find?_lt hq
    rw [getElem?_addChild] at hn
    split at hn
    · next heq =>
      obtain rfl := Option.some.inj hn
      exact ⟨q, rfl, by simp [child?_addChild hlt, heq]⟩
    · have hold : ∃ m, st.nodes[c]? = some m ∧ m.parent = n.parent ∧ m.name = n.name := by
        split at hn
        · obtain ⟨m, hm, rfl⟩ := Option.map_eq_some_iff.mp hn
          exact ⟨m, hm, rfl, rfl⟩
        · exact ⟨n, hn, rfl, rfl⟩
      obtain ⟨m, hm, hparent, hname⟩ := hold
      obtain ⟨p, hp, hchild⟩ := t.of_parent c m hm hc
      refine ⟨p, hparent ▸ hp, ?_⟩
      rw [child?_addChild hlt, if_neg, ← hname, hchild]
      rintro ⟨rfl, heq⟩
      rw [hname, heq, hnew] at hchild
      cases hchild

theorem historyAt?_addChild (t : st.Tree) {base : List String}
    (hq : st.find? root base = some q) (hnew : st.child? q name = none) (path : List String) :
    (st.addChild q name).historyAt? path =
      if path = base ++ [name] then some [] else st.historyAt? path := by
  rw [historyAt?, find?_addChild t hq hnew]
  split
  · simp [getElem?_addChild]
  · rw [historyAt?]
    cases hc : st.find? root path with
    | none => rfl
    | some c =>
        have hsize : c ≠ st.nodes.size := Nat.ne_of_lt (t.find?_lt hc)
        simp only [Option.bind_some, getElem?_addChild, if_neg hsize]
        split
        · cases st.nodes[c]? <;> rfl
        · rfl

end AddChild

theorem ensure_spec {st : Store} (t : st.Tree) {base : List String} {q : Quark}
    (hq : st.find? root base = some q) (path : List String) :
    ∃ st' c, st.ensure q path = .ok (st', c) ∧ st.Extends st' ∧ st'.endTime = st.endTime ∧
      st'.find? root (base ++ path) = some c ∧
      ∀ p, st'.historyAt? p =
        if p <+: base ++ path then some (st.intervalsAt p) else st.historyAt? p := by
  induction path generalizing st q base with
  | nil =>
      refine ⟨st, q, rfl, .refl t, rfl, by simpa using hq, fun p => ?_⟩
      split
      · next hp =>
        rw [List.append_nil] at hp
        have hsome : (st.historyAt? p).isSome :=
          (t.historyAt?_isSome_iff p).mpr (find?_isSome_of_le hp (by simp [hq]))
        obtain ⟨log, hlog⟩ := Option.isSome_iff_exists.mp hsome
        simp [intervalsAt, hlog]
      · rfl
  | cons name rest ih =>
      obtain ⟨n, hn⟩ := t.exists_node hq
      have hchild : n.children.find? name = st.child? q name := by simp [child?, hn]
      rw [ensure, (node_eq_ok_iff st q n).mpr hn]
      simp only [bind, Except.bind, hchild]
      have happ : base ++ name :: rest = (base ++ [name]) ++ rest := by simp
      cases hc : st.child? q name with
      | some c =>
          have hnext : st.find? root (base ++ [name]) = some c := by
            simp [find?_concat, hq, hc]
          rw [happ]
          exact ih t hnext
      | none =>
          have hnext : (st.addChild q name).find? root (base ++ [name]) =
              some st.nodes.size := by simp [find?_addChild t hq hc]
          obtain ⟨st', c, hensure, hext, hend, hfind, hhist⟩ := ih (tree_addChild t hq hc) hnext
          have hnone : st.historyAt? (base ++ [name]) = none := by
            simp [historyAt?, find?_concat, hq, hc]
          refine ⟨st', c, hensure, ⟨hext.tree, fun p a ha => hext.find? p a ?_,
            hext.startTime, hext.lockedName⟩, hend, by rw [happ]; exact hfind, fun p => ?_⟩
          · rw [find?_addChild t hq hc, if_neg, ha]
            rintro rfl
            rw [find?_concat, hq, Option.bind_some, hc] at ha
            cases ha
          · rw [hhist p, ← happ, intervalsAt, intervalsAt, historyAt?_addChild t hq hc]
            by_cases hp : p = base ++ [name]
            · have hprefix : p <+: base ++ name :: rest := ⟨rest, by rw [hp, ← happ]⟩
              simp [hp ▸ hprefix, hp, hnone]
            · simp [hp]

section SetHistory

variable {st : Store} {q : Quark} {log : List Interval}

theorem getElem?_setHistory (c : Quark) :
    (st.setHistory q log).nodes[c]? =
      if q = c then st.nodes[c]?.map fun n => { n with intervals := log.toArray }
      else st.nodes[c]? := by
  simp only [setHistory, Array.getElem?_modify]

theorem child?_setHistory (c : Quark) (name : String) :
    (st.setHistory q log).child? c name = st.child? c name := by
  rw [child?, child?, getElem?_setHistory]
  split
  · cases st.nodes[c]? <;> rfl
  · rfl

theorem find?_setHistory (c : Quark) (path : List String) :
    (st.setHistory q log).find? c path = st.find? c path := by
  induction path generalizing c with
  | nil => rfl
  | cons name path ih => simp only [find?, child?_setHistory, ih]

theorem exists_node_setHistory (q : Quark) (log : List Interval) {c : Quark} {n : Node}
    (hn : st.nodes[c]? = some n) :
    ∃ m, (st.setHistory q log).nodes[c]? = some m ∧ m.parent = n.parent ∧ m.name = n.name := by
  rw [getElem?_setHistory, hn]
  split
  · exact ⟨_, rfl, rfl, rfl⟩
  · exact ⟨n, rfl, rfl, rfl⟩

theorem tree_setHistory (t : st.Tree) : (st.setHistory q log).Tree where
  root_node := by
    obtain ⟨n, hn, hp⟩ := t.root_node
    obtain ⟨m, hm, hparent, -⟩ := exists_node_setHistory q log hn
    exact ⟨m, hm, hparent.trans hp⟩
  of_child p name c h := by
    rw [child?_setHistory] at h
    obtain ⟨hlt, n, hn, hp, hname⟩ := t.of_child p name c h
    obtain ⟨m, hm, hparent, hname'⟩ := exists_node_setHistory q log hn
    exact ⟨hlt, m, hm, hparent.trans hp, hname'.trans hname⟩
  of_parent c m hm hc := by
    have hold : ∃ n, st.nodes[c]? = some n ∧ n.parent = m.parent ∧ n.name = m.name := by
      rw [getElem?_setHistory] at hm
      split at hm
      · obtain ⟨n, hn, rfl⟩ := Option.map_eq_some_iff.mp hm
        exact ⟨n, hn, rfl, rfl⟩
      · exact ⟨m, hm, rfl, rfl⟩
    obtain ⟨n, hn, hparent, hname⟩ := hold
    obtain ⟨p, hp, hchild⟩ := t.of_parent c n hn hc
    exact ⟨p, hparent ▸ hp, by rw [child?_setHistory, ← hname, hchild]⟩

theorem historyAt?_setHistory (t : st.Tree) {path : List String}
    (hq : st.find? root path = some q) (p : List String) :
    (st.setHistory q log).historyAt? p = if p = path then some log else st.historyAt? p := by
  rw [historyAt?, find?_setHistory]
  by_cases hp : p = path
  · subst hp
    obtain ⟨n, hn⟩ := t.exists_node hq
    simp [hq, hn, getElem?_setHistory]
  · rw [if_neg hp, historyAt?]
    cases hc : st.find? root p with
    | none => rfl
    | some c =>
        have hne : q ≠ c := by
          rintro rfl
          exact hp (t.find?_injective hc hq)
        simp [getElem?_setHistory, hne]

theorem setHistory_self {n : Node} (hn : st.nodes[q]? = some n) :
    st.setHistory q n.intervals.toList = st := by
  have hnodes : (st.setHistory q n.intervals.toList).nodes = st.nodes := by
    apply Array.ext_getElem?
    intro c
    rw [getElem?_setHistory]
    split
    · next h => simp [← h, hn]
    · rfl
  exact congrArg (fun nodes => { st with nodes }) hnodes

theorem addInterval_eq_setHistory {n : Node} (hn : st.nodes[q]? = some n) (i : Interval) :
    st.addInterval q i = st.setHistory q (n.intervals.toList ++ [i]) := by
  have hnodes : (st.addInterval q i).nodes =
      (st.setHistory q (n.intervals.toList ++ [i])).nodes := by
    apply Array.ext_getElem?
    intro c
    rw [getElem?_setHistory, addInterval, Array.getElem?_modify]
    split
    · next h => simp [← h, hn, ← List.push_toArray]
    · rfl
  exact congrArg (fun nodes => { st with nodes }) hnodes

end SetHistory

section ExtendTo

variable (st : Store) (time : Int64)

@[simp] theorem nodes_extendTo : (st.extendTo time).nodes = st.nodes := by
  rw [extendTo]
  split <;> rfl

@[simp] theorem startTime_extendTo : (st.extendTo time).startTime = st.startTime := by
  rw [extendTo]
  split <;> rfl

@[simp] theorem lockedName_extendTo : (st.extendTo time).lockedName = st.lockedName := by
  rw [extendTo]
  split <;> rfl

theorem endTime_extendTo :
    (st.extendTo time).endTime = if st.endTime < time then time else st.endTime := by
  rw [extendTo]
  split <;> rfl

theorem endTime_le_extendTo : st.endTime ≤ (st.extendTo time).endTime := by
  rw [endTime_extendTo]
  split
  · next h => exact Int64.le_of_lt h
  · exact Int64.le_refl _

theorem le_endTime_extendTo : time ≤ (st.extendTo time).endTime := by
  rw [endTime_extendTo]
  split
  · exact Int64.le_refl _
  · next h => exact Int64.not_lt.mp h

@[simp] theorem child?_extendTo (q : Quark) (name : String) :
    (st.extendTo time).child? q name = st.child? q name := by
  simp [child?]

@[simp] theorem find?_extendTo (q : Quark) (path : List String) :
    (st.extendTo time).find? q path = st.find? q path := by
  induction path generalizing q with
  | nil => rfl
  | cons name path ih => simp [find?, ih]

@[simp] theorem historyAt?_extendTo (path : List String) :
    (st.extendTo time).historyAt? path = st.historyAt? path := by
  simp [historyAt?]

variable {st}

theorem tree_extendTo (t : st.Tree) : (st.extendTo time).Tree where
  root_node := by simpa using t.root_node
  of_child := by simpa using t.of_child
  of_parent := by simpa using t.of_parent

theorem extends_extendTo (t : st.Tree) : st.Extends (st.extendTo time) where
  tree := tree_extendTo time t
  find? := by simp
  startTime := by simp
  lockedName := by simp

end ExtendTo

end TraceAutomata.Store
