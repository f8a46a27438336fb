import PsacMpi.GatherRange
import Mathlib.Data.List.Sort

namespace PsacMpi.NodeDistribution

open Counts Collectives GatherRange

/-- The characters `[p_name, p_name + p_len + 1)` a rank gathers: its processor name and the
terminating `'\0'`. -/
def nameRange (name : String) : List Char := name.data ++ [Char.ofNat 0]

/-- The loop of `print_node_distribution` that cuts `all_names_raw` at each `'\0'`; `chunk`
holds the characters since `str_start`. -/
def splitNames : List Char → List Char → List String
  | [], _ => []
  | c :: cs, chunk =>
    if c = Char.ofNat 0 then String.mk chunk :: splitNames cs [] else splitNames cs (chunk ++ [c])

/-- `all_names` on rank 0: `none` where a name would be written past the `p` entries or
`assert(i == p)` fails. -/
def allNames (p : Nat) (raw : List Char) : Option (List String) :=
  if (splitNames raw []).length = p then some (splitNames raw []) else none

/-- `std::less<std::string>`: lexicographic on the character codes. -/
def nameLt : List Char → List Char → Bool
  | _, [] => false
  | [], _ :: _ => true
  | a :: as, b :: bs => a.toNat < b.toNat || (a = b && nameLt as bs)

/-- `procs_per_node[name].push_back(i)` on the `std::map`, kept as its entries in increasing
key order. -/
def pushBack : List (String × List Nat) → String → Nat → List (String × List Nat)
  | [], name, i => [(name, [i])]
  | (k, v) :: rest, name, i =>
    if name = k then (k, v ++ [i]) :: rest
    else if nameLt name.data k.data then (name, [i]) :: (k, v) :: rest
    else (k, v) :: pushBack rest name i

/-- The loop `procs_per_node[all_names[i]].push_back(i)` over the ranks. -/
def procsPerNode (allNames : List String) : List (String × List Nat) :=
  (List.range allNames.length).foldl (fun m i ↦ pushBack m (allNames.getD i "") i) []

/-- `proc_distr`: each node's ranks sorted, then the nodes sorted by their first rank.
`std::sort` is not stable, but distinct nodes have distinct first ranks, so every sort gives
this order. -/
def procDistr (allNames : List String) : List (String × List Nat) :=
  ((procsPerNode allNames).map fun e ↦ (e.1, e.2.mergeSort)).mergeSort
    fun x y ↦ x.2.headD 0 ≤ y.2.headD 0

/-- `print_node_distribution(comm)` on rank 0, each rank `r` having processor name `names[r]`:
the node distribution it prints. -/
def printNodeDistribution (names : List String) : Option (List (String × List Nat)) := do
  let allNamesRaw ← gatherRange .int (names.map nameRange)
  let allNames ← allNames names.length (allNamesRaw.getD 0 [])
  pure (procDistr allNames)

def firstRanks (names : List String) : List Nat :=
  (List.range names.length).filter fun i ↦ ∀ j < i, names.getD j "" ≠ names.getD i ""

def nodeOf (names : List String) (h : Nat) : String × List Nat :=
  (names.getD h "", (List.range names.length).filter fun j ↦ names.getD j "" = names.getD h "")

/-- The nodes in the order of their lowest rank, each with the ranks on it in increasing order. -/
def nodesByFirstRank (names : List String) : List (String × List Nat) :=
  (firstRanks names).map (nodeOf names)

theorem splitNames_append (xs rest chunk : List Char) (hxs : Char.ofNat 0 ∉ xs) :
    splitNames (xs ++ Char.ofNat 0 :: rest) chunk = String.mk (chunk ++ xs) :: splitNames rest [] := by
  induction xs generalizing chunk with
  | nil => simp [splitNames]
  | cons x xs ih =>
    have hx : x ≠ Char.ofNat 0 := fun h ↦ hxs (h ▸ List.mem_cons_self _ _)
    rw [List.cons_append, splitNames, if_neg hx, ih _ fun h ↦ hxs (List.mem_cons_of_mem _ h),
      List.append_assoc, List.singleton_append]

theorem splitNames_flatten (names : List String) (hnames : ∀ nm ∈ names, Char.ofNat 0 ∉ nm.data) :
    splitNames (names.map nameRange).flatten [] = names := by
  induction names with
  | nil => rfl
  | cons nm names ih =>
    rw [List.map_cons, List.flatten_cons, nameRange, List.append_assoc, List.singleton_append,
      splitNames_append _ _ _ (hnames nm (List.mem_cons_self _ _)), List.nil_append,
      ih fun n hn ↦ hnames n (List.mem_cons_of_mem _ hn)]

theorem length_splitNames (raw chunk : List Char) :
    (splitNames raw chunk).length = raw.count (Char.ofNat 0) := by
  induction raw generalizing chunk with
  | nil => rfl
  | cons c cs ih =>
    by_cases h : c = Char.ofNat 0
    · simp [splitNames, List.count_cons, h, ih]
    · simp [splitNames, List.count_cons, h, ih]

theorem count_take_nameRange {nm : String} (hnm : Char.ofNat 0 ∉ nm.data) (k : Nat) :
    ((nameRange nm).take k).count (Char.ofNat 0) = if nm.data.length < k then 1 else 0 := by
  rw [nameRange]
  split_ifs with hk
  · rw [List.take_of_length_le (by rw [List.length_append, List.length_singleton]; omega),
      List.count_append, List.count_eq_zero.mpr hnm, List.count_singleton_self]
  · rw [List.take_append_of_le_length (by omega)]
    exact List.count_eq_zero.mpr fun h ↦ hnm (List.mem_of_mem_take h)

theorem count_flatten_take_nameRange (names : List String)
    (hnul : ∀ nm ∈ names, Char.ofNat 0 ∉ nm.data) (ks : String → Nat) :
    (names.map fun nm ↦ (nameRange nm).take (ks nm)).flatten.count (Char.ofNat 0) =
      names.countP fun nm ↦ nm.data.length < ks nm := by
  induction names with
  | nil => rfl
  | cons nm names ih =>
    rw [List.map_cons, List.flatten_cons, List.count_append,
      count_take_nameRange (hnul nm (List.mem_cons_self _ _)),
      ih fun n hn ↦ hnul n (List.mem_cons_of_mem _ hn), List.countP_cons]
    by_cases h : nm.data.length < ks nm <;> simp [h, Nat.add_comm]

theorem nameLt_irrefl (a : List Char) : nameLt a a = false := by
  induction a with
  | nil => rfl
  | cons x xs ih => simp [nameLt, ih]

theorem nameLt_trans {a b c : List Char} (hab : nameLt a b) (hbc : nameLt b c) : nameLt a c := by
  induction a generalizing b c with
  | nil => cases b <;> cases c <;> simp_all [nameLt]
  | cons x xs ih =>
    rcases b with _ | ⟨y, ys⟩
    · simp [nameLt] at hab
    rcases c with _ | ⟨z, zs⟩
    · simp [nameLt] at hbc
    simp only [nameLt, Bool.or_eq_true, decide_eq_true_eq, Bool.and_eq_true] at hab hbc ⊢
    rcases hab with hab | ⟨rfl, hab⟩ <;> rcases hbc with hbc | ⟨rfl, hbc⟩
    · exact .inl (hab.trans hbc)
    · exact .inl hab
    · exact .inl hbc
    · exact .inr ⟨rfl, ih hab hbc⟩

theorem nameLt_total {a b : List Char} (hne : a ≠ b) (hab : nameLt a b = false) : nameLt b a := by
  induction a generalizing b with
  | nil => cases b <;> simp_all [nameLt]
  | cons x xs ih =>
    rcases b with _ | ⟨y, ys⟩
    · rfl
    simp only [nameLt, Bool.or_eq_false_iff, decide_eq_false_iff_not, Bool.and_eq_false_iff,
      Bool.or_eq_true, decide_eq_true_eq, Bool.and_eq_true] at hab ⊢
    by_cases hxy : x = y
    · subst hxy
      exact .inr ⟨rfl, ih (fun h ↦ hne (h ▸ rfl)) (hab.2.resolve_left (by simp))⟩
    · exact .inl (Nat.lt_of_le_of_ne (Nat.not_lt.mp hab.1)
        fun h ↦ hxy (Char.ext (UInt32.toNat.inj h.symm)))

def KeySorted (m : List (String × List Nat)) : Prop :=
  m.Pairwise fun x y ↦ nameLt x.1.data y.1.data

theorem lookup_cons_eq (k nm : String) (v : List Nat) (rest : List (String × List Nat)) :
    ((k, v) :: rest).lookup nm = if nm = k then some v else rest.lookup nm := by
  by_cases h : nm = k
  · subst h; simp [List.lookup_cons]
  · rw [List.lookup_cons, beq_false_of_ne h, if_neg h]

theorem lookup_eq_none_of_nameLt {k name : String} {v : List Nat} {rest : List (String × List Nat)}
    (hm : KeySorted ((k, v) :: rest)) (hlt : nameLt name.data k.data) : rest.lookup name = none :=
  List.lookup_eq_none_iff.mpr fun e he ↦ by
    have h := nameLt_trans hlt ((List.pairwise_cons.mp hm).1 e he)
    refine bne_iff_ne.mpr fun heq ↦ ?_
    rw [heq, nameLt_irrefl] at h
    cases h

theorem mem_pushBack {m : List (String × List Nat)} {name : String} {i : Nat}
    {e : String × List Nat} (he : e ∈ pushBack m name i) : e.1 = name ∨ ∃ e' ∈ m, e'.1 = e.1 := by
  induction m with
  | nil => simp_all [pushBack]
  | cons kv rest ih =>
    obtain ⟨k, v⟩ := kv
    simp only [pushBack] at he
    split_ifs at he with h₁ h₂
    · rcases List.mem_cons.mp he with rfl | he
      · exact .inr ⟨(k, v), List.mem_cons_self _ _, rfl⟩
      · exact .inr ⟨e, List.mem_cons_of_mem _ he, rfl⟩
    · rcases List.mem_cons.mp he with rfl | he
      · exact .inl rfl
      · exact .inr ⟨e, he, rfl⟩
    · rcases List.mem_cons.mp he with rfl | he
      · exact .inr ⟨(k, v), List.mem_cons_self _ _, rfl⟩
      · obtain h | ⟨e', he', h⟩ := ih he
        · exact .inl h
        · exact .inr ⟨e', List.mem_cons_of_mem _ he', h⟩

theorem keySorted_pushBack {m : List (String × List Nat)} (hm : KeySorted m) (name : String)
    (i : Nat) : KeySorted (pushBack m name i) := by
  induction m with
  | nil => exact List.pairwise_singleton _ _
  | cons kv rest ih =>
    obtain ⟨k, v⟩ := kv
    have hrest := List.pairwise_cons.mp hm
    simp only [pushBack]
    split_ifs with h₁ h₂
    · exact List.pairwise_cons.mpr ⟨hrest.1, hrest.2⟩
    · exact List.pairwise_cons.mpr ⟨fun e he ↦ by
        rcases List.mem_cons.mp he with rfl | he
        · exact h₂
        · exact nameLt_trans h₂ (hrest.1 e he), hm⟩
    · have hk : nameLt k.data name.data :=
        nameLt_total (fun h ↦ h₁ (String.ext h)) (Bool.eq_false_iff.mpr h₂)
      refine List.pairwise_cons.mpr ⟨fun e he ↦ ?_, ih hrest.2⟩
      rcases mem_pushBack he with h | ⟨e', he', h⟩
      · exact h ▸ hk
      · exact h ▸ hrest.1 e' he'

theorem lookup_pushBack {m : List (String × List Nat)} (hm : KeySorted m) (name : String) (i : Nat)
    (nm : String) :
    (pushBack m name i).lookup nm =
      if nm = name then some ((m.lookup name).getD [] ++ [i]) else m.lookup nm := by
  induction m with
  | nil => by_cases h : nm = name <;> simp [pushBack, lookup_cons_eq, h]
  | cons kv rest ih =>
    obtain ⟨k, v⟩ := kv
    by_cases h₁ : name = k
    · subst h₁
      by_cases h : nm = name <;> simp [pushBack, lookup_cons_eq, h]
    · by_cases h₂ : nameLt name.data k.data
      · by_cases h : nm = name <;>
          simp [pushBack, lookup_cons_eq, h, h₁, h₂, lookup_eq_none_of_nameLt hm h₂]
      · simp only [pushBack, if_neg h₁, if_neg h₂, lookup_cons_eq, ih (List.pairwise_cons.mp hm).2]
        by_cases h : nm = name
        · subst h; simp [h₁]
        · simp [h]

theorem foldl_pushBack (names : List String) (k : Nat) :
    KeySorted ((List.range k).foldl (fun m i ↦ pushBack m (names.getD i "") i) []) ∧
      ∀ nm, ((List.range k).foldl (fun m i ↦ pushBack m (names.getD i "") i) []).lookup nm =
        if ∃ j < k, names.getD j "" = nm then
          some ((List.range k).filter fun j ↦ names.getD j "" = nm)
        else none := by
  induction k with
  | zero => exact ⟨List.Pairwise.nil, fun _ ↦ by simp⟩
  | succ k ih =>
    rw [List.range_succ, List.foldl_append, List.foldl_cons, List.foldl_nil]
    refine ⟨keySorted_pushBack ih.1 _ _, fun nm ↦ ?_⟩
    rw [lookup_pushBack ih.1, ih.2, ih.2, List.filter_append]
    simp only [Nat.exists_lt_succ]
    by_cases h : nm = names.getD k ""
    · subst h
      have hself : [k].filter (fun j ↦ decide (names.getD j "" = names.getD k "")) = [k] :=
        List.filter_cons_of_pos (decide_eq_true rfl)
      rw [if_pos rfl, if_pos (Or.inr rfl), hself]
      split_ifs with hk
      · rfl
      · push_neg at hk
        have hnil : (List.range k).filter (fun j ↦ decide (names.getD j "" = names.getD k "")) =
            [] := List.filter_eq_nil_iff.mpr fun j hj ↦ by simpa using hk j (List.mem_range.mp hj)
        rw [hnil]
        rfl
    · have hnot : [k].filter (fun j ↦ decide (names.getD j "" = nm)) = [] :=
        List.filter_cons_of_neg (by simpa using Ne.symm h)
      rw [if_neg h, hnot, List.append_nil]
      simp only [or_iff_left (Ne.symm h)]

theorem headD_filter_range {P : Nat → Prop} [DecidablePred P] {n h : Nat} (hn : h < n) (hP : P h)
    (hmin : ∀ j < h, ¬P j) : ((List.range n).filter fun j ↦ decide (P j)).headD 0 = h := by
  obtain ⟨k, rfl⟩ : ∃ k, n = h + 1 + k := ⟨n - (h + 1), by omega⟩
  have hnil : (List.range h).filter (fun j ↦ decide (P j)) = [] :=
    List.filter_eq_nil_iff.mpr fun j hj ↦ by simpa using hmin j (List.mem_range.mp hj)
  rw [List.range_add, List.range_succ, List.filter_append, List.filter_append, hnil,
    List.filter_cons_of_pos (by simpa using hP)]
  rfl

theorem lookup_of_mem {m : List (String × List Nat)} (hm : KeySorted m) {e : String × List Nat}
    (he : e ∈ m) : m.lookup e.1 = some e.2 := by
  induction m with
  | nil => cases he
  | cons x rest ih =>
    obtain ⟨k, v⟩ := x
    rw [KeySorted, List.pairwise_cons] at hm
    rcases List.mem_cons.mp he with rfl | he
    · exact List.lookup_cons_self
    · have hne : e.1 ≠ k := fun h ↦ by simpa [h, nameLt_irrefl] using hm.1 e he
      rw [lookup_cons_eq, if_neg hne]
      exact ih hm.2 he

theorem mem_of_lookup {m : List (String × List Nat)} {nm : String} {v : List Nat}
    (h : m.lookup nm = some v) : (nm, v) ∈ m := by
  obtain ⟨l₁, l₂, rfl, -⟩ := List.lookup_eq_some_iff.mp h
  simp

section Nodes

variable (names : List String)

theorem keySorted_procsPerNode : KeySorted (procsPerNode names) := (foldl_pushBack names _).1

theorem lookup_procsPerNode (nm : String) :
    (procsPerNode names).lookup nm =
      if ∃ j < names.length, names.getD j "" = nm then
        some ((List.range names.length).filter fun j ↦ names.getD j "" = nm)
      else none :=
  (foldl_pushBack names _).2 nm

variable {names}

theorem mem_firstRanks {h : Nat} :
    h ∈ firstRanks names ↔ h < names.length ∧ ∀ j < h, names.getD j "" ≠ names.getD h "" := by
  rw [firstRanks, List.mem_filter, List.mem_range, decide_eq_true_iff]

theorem find_mem_firstRanks {nm : String} (hex : ∃ j < names.length, names.getD j "" = nm) :
    Nat.find hex ∈ firstRanks names := by
  have hfirst := Nat.find_spec hex
  rw [mem_firstRanks, hfirst.2]
  exact ⟨hfirst.1, fun j hj hje ↦ Nat.find_min hex hj ⟨by omega, hje⟩⟩

theorem headD_nodeOf {h : Nat} (hh : h ∈ firstRanks names) : (nodeOf names h).2.headD 0 = h :=
  headD_filter_range (mem_firstRanks.mp hh).1 rfl (mem_firstRanks.mp hh).2

theorem mem_procsPerNode {e : String × List Nat} (he : e ∈ procsPerNode names) :
    e.2.headD 0 ∈ firstRanks names ∧ nodeOf names (e.2.headD 0) = e := by
  have hl := lookup_procsPerNode names e.1
  rw [lookup_of_mem (keySorted_procsPerNode names) he] at hl
  split_ifs at hl with hex
  have hnode : nodeOf names (Nat.find hex) = e := by
    rw [nodeOf, (Nat.find_spec hex).2, ← Option.some.inj hl]
  rw [← hnode, headD_nodeOf (find_mem_firstRanks hex)]
  exact ⟨find_mem_firstRanks hex, rfl⟩

theorem nodeOf_mem_procsPerNode {h : Nat} (hh : h ∈ firstRanks names) :
    nodeOf names h ∈ procsPerNode names := by
  apply mem_of_lookup
  rw [lookup_procsPerNode, if_pos ⟨h, (mem_firstRanks.mp hh).1, rfl⟩]

theorem sorted_mergeSort_byHead (m : List (String × List Nat)) :
    ((m.mergeSort fun x y ↦ x.2.headD 0 ≤ y.2.headD 0).map fun e ↦ e.2.headD 0).Pairwise
      (· ≤ ·) := by
  refine List.pairwise_map.mpr ((List.sorted_mergeSort ?_ ?_ m).imp of_decide_eq_true)
  · intro a b c hab hbc
    exact decide_eq_true (le_trans (of_decide_eq_true hab) (of_decide_eq_true hbc))
  · intro a b
    simp only [Bool.or_eq_true, decide_eq_true_eq]
    exact le_total _ _

theorem sorted_nodeOf (h : Nat) : (nodeOf names h).2.Pairwise (· ≤ ·) :=
  ((List.pairwise_lt_range _).filter _).imp Nat.le_of_lt

theorem nodup_map_headD_procsPerNode :
    ((procsPerNode names).map fun e ↦ e.2.headD 0).Nodup := by
  refine List.pairwise_map.mpr ((keySorted_procsPerNode names).imp_of_mem fun hx hy hlt heq ↦ ?_)
  rw [← (mem_procsPerNode hx).2, ← (mem_procsPerNode hy).2, heq, nameLt_irrefl] at hlt
  cases hlt

theorem map_headD_procsPerNode_perm :
    ((procsPerNode names).map fun e ↦ e.2.headD 0).Perm (firstRanks names) := by
  refine (List.perm_ext_iff_of_nodup nodup_map_headD_procsPerNode
    ((List.nodup_range _).filter _)).mpr fun h ↦ ⟨fun hh ↦ ?_, fun hh ↦ ?_⟩
  · obtain ⟨e, he, rfl⟩ := List.mem_map.mp hh
    exact (mem_procsPerNode he).1
  · exact List.mem_map.mpr ⟨_, nodeOf_mem_procsPerNode hh, headD_nodeOf hh⟩

theorem eq_nodesByFirstRank_of_perm {l : List (String × List Nat)}
    (hperm : l.Perm (procsPerNode names)) (hsorted : (l.map fun e ↦ e.2.headD 0).Pairwise (· ≤ ·)) :
    l = nodesByFirstRank names := by
  have hheads : l.map (fun e ↦ e.2.headD 0) = firstRanks names :=
    List.eq_of_perm_of_sorted ((hperm.map _).trans map_headD_procsPerNode_perm) hsorted
      (((List.pairwise_lt_range _).filter _).imp Nat.le_of_lt)
  calc l = (l.map fun e ↦ e.2.headD 0).map (nodeOf names) := by
        rw [List.map_map]
        exact ((List.map_congr_left fun e he ↦
          (mem_procsPerNode (hperm.mem_iff.mp he)).2).trans (List.map_id _)).symm
    _ = nodesByFirstRank names := by rw [hheads, nodesByFirstRank]

theorem procDistr_eq : procDistr names = nodesByFirstRank names := by
  have hinner : (procsPerNode names).map (fun e ↦ (e.1, e.2.mergeSort)) = procsPerNode names := by
    refine (List.map_congr_left fun e he ↦ ?_).trans (List.map_id _)
    rw [← (mem_procsPerNode he).2, List.mergeSort_of_sorted ((sorted_nodeOf _).imp decide_eq_true)]
    rfl
  rw [procDistr, hinner]
  exact eq_nodesByFirstRank_of_perm (List.mergeSort_perm _ _) (sorted_mergeSort_byHead _)

theorem getD_eq_of_mem_nodeOf {h r : Nat} (hr : r ∈ (nodeOf names h).2) :
    names.getD r "" = (nodeOf names h).1 := by
  simpa [nodeOf] using (List.mem_filter.mp hr).2

theorem getD_eq_of_mem_nodesByFirstRank {e : String × List Nat} (he : e ∈ nodesByFirstRank names)
    {r : Nat} (hr : r ∈ e.2) : names.getD r "" = e.1 := by
  obtain ⟨h, -, rfl⟩ := List.mem_map.mp he
  exact getD_eq_of_mem_nodeOf hr

theorem pairwise_firstRanks_ne :
    (firstRanks names).Pairwise fun h₁ h₂ ↦ names.getD h₁ "" ≠ names.getD h₂ "" :=
  ((List.pairwise_lt_range _).filter _).imp_of_mem fun _ h₂ hlt ↦ (mem_firstRanks.mp h₂).2 _ hlt

theorem nodup_map_fst_nodesByFirstRank : ((nodesByFirstRank names).map Prod.fst).Nodup := by
  rw [nodesByFirstRank, List.map_map]
  exact List.pairwise_map.mpr pairwise_firstRanks_ne

theorem perm_flatten_nodesByFirstRank :
    ((nodesByFirstRank names).map Prod.snd).flatten.Perm (List.range names.length) := by
  have hnodup : ((nodesByFirstRank names).map Prod.snd).flatten.Nodup := by
    rw [nodesByFirstRank, List.map_map, List.nodup_flatten, List.pairwise_map]
    refine ⟨fun l hl ↦ ?_, pairwise_firstRanks_ne.imp fun hne r hr₁ hr₂ ↦
      hne ((getD_eq_of_mem_nodeOf hr₁).symm.trans (getD_eq_of_mem_nodeOf hr₂))⟩
    obtain ⟨h, -, rfl⟩ := List.mem_map.mp hl
    exact (List.nodup_range _).filter _
  refine (List.perm_ext_iff_of_nodup hnodup (List.nodup_range _)).mpr fun r ↦ ⟨fun hr ↦ ?_, fun hr ↦ ?_⟩
  · obtain ⟨l, hl, hrl⟩ := List.mem_flatten.mp hr
    obtain ⟨e, he, rfl⟩ := List.mem_map.mp hl
    obtain ⟨h, -, rfl⟩ := List.mem_map.mp he
    exact (List.mem_filter.mp hrl).1
  · have hex : ∃ j < names.length, names.getD j "" = names.getD r "" :=
      ⟨r, List.mem_range.mp hr, rfl⟩
    refine List.mem_flatten.mpr ⟨_, List.mem_map_of_mem _
      (List.mem_map_of_mem _ (find_mem_firstRanks hex)), ?_⟩
    rw [nodeOf, List.mem_filter, (Nat.find_spec hex).2]
    exact ⟨hr, decide_eq_true rfl⟩

end Nodes

/-- On rank 0, `print_node_distribution` cuts the gathered names apart again (the
`assert(i == p)` holds) and prints every node once, in the order of its lowest rank, with every
rank listed once, under the node whose name it has, in increasing order. It fails only where the
gathered characters, a name and its `'\0'` per rank, overflow `int`. -/
theorem print_node_distribution_eq (names : List String)
    (hnul : ∀ nm ∈ names, Char.ofNat 0 ∉ nm.data) :
    (printNodeDistribution names =
      if (names.map fun nm ↦ nm.length + 1).sum ≤ INT_MAX then some (nodesByFirstRank names)
      else none) ∧
      ((nodesByFirstRank names).map Prod.fst).Nodup ∧
      ((nodesByFirstRank names).map Prod.snd).flatten.Perm (List.range names.length) ∧
      ∀ e ∈ nodesByFirstRank names, ∀ r ∈ e.2, names.getD r "" = e.1 := by
  refine ⟨?_, nodup_map_fst_nodesByFirstRank, perm_flatten_nodesByFirstRank,
    fun e he r hr ↦ getD_eq_of_mem_nodesByFirstRank he hr⟩
  have hroot : ∀ f : String → List Char,
      (rootResult names.length (names.map f).flatten).getD 0 [] = (names.map f).flatten := by
    intro f
    cases names with
    | nil => rfl
    | cons nm rest => rw [List.length_cons, rootResult_eq (Nat.succ_pos _)]; rfl
  have hlen : ∀ nm, (nameRange nm).length = nm.length + 1 := fun nm ↦ by
    rw [nameRange, List.length_append, List.length_singleton]
    rfl
  by_cases hfit : (names.map fun nm ↦ nm.length + 1).sum ≤ INT_MAX
  · have hsizes : CountType.int.Fits ((names.map nameRange).map List.length).sum := by
      rwa [List.map_map, Function.comp_def, funext hlen]
    rw [if_pos hfit, printNodeDistribution, gatherRange_eq_of_fits hsizes, Option.bind_eq_bind,
      Option.some_bind, List.length_map, hroot, allNames, splitNames_flatten names hnul, if_pos rfl,
      ← procDistr_eq]
    rfl
  · rw [if_neg hfit, printNodeDistribution, gatherRange_eq, List.map_map, List.map_map,
      List.length_map]
    split_ifs with hwrap
    · rw [Option.bind_eq_bind, Option.some_bind, Function.comp_def, hroot, allNames, if_neg]
      · rfl
      rw [length_splitNames, count_flatten_take_nameRange names hnul]
      refine Nat.ne_of_lt (lt_of_le_of_ne (List.countP_le_length _) fun heq ↦ hfit ?_)
      have hall : ∀ nm ∈ names, CountType.int.wrap (nameRange nm).length = nm.length + 1 :=
        fun nm hnm ↦ le_antisymm ((CountType.wrap_le _ _).trans_eq (hlen nm))
          (by simpa using List.countP_eq_length.mp heq nm hnm)
      rwa [Function.comp_def, List.map_congr_left hall] at hwrap
    · rfl

theorem print_node_distribution_eq_example :
    (∀ nm ∈ ["n0", "n1", "n0"], Char.ofNat 0 ∉ nm.data) ∧
      printNodeDistribution ["n0", "n1", "n0"] = some [("n0", [0, 2]), ("n1", [1])] :=
  ⟨by decide, (print_node_distribution_eq _ (by decide)).1.trans (by decide)⟩

end PsacMpi.NodeDistribution
