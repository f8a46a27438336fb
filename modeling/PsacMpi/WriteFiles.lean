import PsacMpi.NodeDistribution
import Mathlib.Data.Nat.Digits

namespace PsacMpi.WriteFiles

open NodeDistribution

variable {α : Type}

/-- `std::setfill('0') << std::setw(w)`: the text padded with `'0'` on the left to at least `w`
characters. -/
def setw (w : Nat) (s : List Char) : List Char := List.replicate (w - s.length) '0' ++ s

/-- `rank_slen`: the length of `p` written in decimal. -/
def rankSlen (p : Nat) : Nat := (Nat.toDigits 10 p).length

/-- The file rank `rank` of `p` writes: `filename.<p>.<rank>`, both numbers padded with `'0'` to
the width of `p`. -/
def fileName (filename : String) (p rank : Nat) : String :=
  filename ++ "." ++ ⟨setw (rankSlen p) (Nat.toDigits 10 p)⟩ ++ "." ++
    ⟨setw (rankSlen p) (Nat.toDigits 10 rank)⟩

/-- What the loop writes into the file: each element as `operator<<` prints it (`put`), followed
by `std::endl`. -/
def fileContent (put : α → List Char) (elems : List α) : List Char :=
  (elems.map fun x ↦ put x ++ ['\n']).flatten

/-- `write_files(filename, begin, end)` called on every rank, rank `r` holding `world[r]`: the
name and the content of the file each rank writes. -/
def writeFiles (filename : String) (put : α → List Char) (world : List (List α)) :
    List (String × List Char) :=
  (List.range world.length).map fun rank ↦
    (fileName filename world.length rank, fileContent put (world.getD rank []))

def IsDigit (c : Char) : Prop := 48 ≤ c.toNat ∧ c.toNat < 58

def decimalValue : List Char → Nat
  | [] => 0
  | c :: cs => (c.toNat - 48) * 10 ^ cs.length + decimalValue cs

theorem decimalValue_append (l₁ l₂ : List Char) :
    decimalValue (l₁ ++ l₂) = decimalValue l₁ * 10 ^ l₂.length + decimalValue l₂ := by
  induction l₁ with
  | nil => simp [decimalValue]
  | cons c cs ih =>
    rw [List.cons_append, decimalValue, decimalValue, ih, List.length_append, Nat.pow_add]
    ring

theorem decimalValue_replicate_zero (k : Nat) : decimalValue (List.replicate k '0') = 0 := by
  induction k with
  | zero => rfl
  | succ k ih =>
    rw [List.replicate_succ, decimalValue, ih, show '0'.toNat - 48 = 0 from rfl, Nat.zero_mul]

theorem decimalValue_setw (w : Nat) (s : List Char) : decimalValue (setw w s) = decimalValue s := by
  rw [setw, decimalValue_append, decimalValue_replicate_zero, Nat.zero_mul, Nat.zero_add]

theorem decimalValue_lt : ∀ {l : List Char}, (∀ c ∈ l, IsDigit c) → decimalValue l < 10 ^ l.length
  | [], _ => Nat.one_pos
  | c :: cs, hl => by
    have hc := hl c (List.mem_cons_self _ _)
    have hcs := decimalValue_lt fun d hd ↦ hl d (List.mem_cons_of_mem _ hd)
    have hdigit : c.toNat - 48 + 1 ≤ 10 := by unfold IsDigit at hc; omega
    calc decimalValue (c :: cs) < (c.toNat - 48 + 1) * 10 ^ cs.length := by
          rw [decimalValue, Nat.succ_mul]; omega
      _ ≤ 10 * 10 ^ cs.length := Nat.mul_le_mul_right _ hdigit
      _ = 10 ^ (c :: cs).length := by rw [List.length_cons, Nat.pow_succ, Nat.mul_comm]

theorem digitChar_toNat : ∀ d < 10, (Nat.digitChar d).toNat = 48 + d := by decide

theorem toDigitsCore_eq : ∀ fuel n : Nat, n < fuel → ∀ ds : List Char,
    ∃ D, Nat.toDigitsCore 10 fuel n ds = D ++ ds ∧ 0 < D.length ∧ (∀ c ∈ D, IsDigit c) ∧
      decimalValue D = n
  | 0, _, h, _ => absurd h (Nat.not_lt_zero _)
  | fuel + 1, n, h, ds => by
    have hd := digitChar_toNat (n % 10) (Nat.mod_lt _ (by decide))
    have hdigit : IsDigit (Nat.digitChar (n % 10)) := by unfold IsDigit; omega
    rw [Nat.toDigitsCore]
    split_ifs with hn
    · refine ⟨[Nat.digitChar (n % 10)], rfl, Nat.one_pos, by simpa using hdigit, ?_⟩
      simp only [decimalValue, hd, List.length_nil, pow_zero]
      omega
    · obtain ⟨D, hD, hpos, hdig, hval⟩ := toDigitsCore_eq fuel (n / 10) (by omega)
        (Nat.digitChar (n % 10) :: ds)
      refine ⟨D ++ [Nat.digitChar (n % 10)], by rw [hD, List.append_assoc]; rfl, by simp, ?_, ?_⟩
      · simpa [or_imp, forall_and] using ⟨hdig, hdigit⟩
      · simp only [decimalValue_append, hval, decimalValue, hd, List.length_singleton, pow_one,
          List.length_nil, pow_zero]
        omega

theorem toDigits_eq (n : Nat) :
    0 < (Nat.toDigits 10 n).length ∧ (∀ c ∈ Nat.toDigits 10 n, IsDigit c) ∧
      decimalValue (Nat.toDigits 10 n) = n := by
  obtain ⟨D, hD, h⟩ := toDigitsCore_eq _ _ (Nat.lt_succ_self n) []
  rw [Nat.toDigits, hD, List.append_nil]
  exact h

theorem length_toDigits_le {p r : Nat} (hr : r < p) : (Nat.toDigits 10 r).length ≤ rankSlen p := by
  obtain ⟨hpos, hdig, hval⟩ := toDigits_eq p
  have hp : p < 10 ^ rankSlen p := by
    have h := decimalValue_lt hdig
    rwa [hval] at h
  exact Nat.repr_length r _ hpos (hr.trans hp)

theorem length_setw {w : Nat} {s : List Char} (h : s.length ≤ w) : (setw w s).length = w := by
  rw [setw, List.length_append, List.length_replicate]
  omega

theorem isDigit_setw {w : Nat} {s : List Char} (hs : ∀ c ∈ s, IsDigit c) :
    ∀ c ∈ setw w s, IsDigit c := by
  intro c hc
  rcases List.mem_append.mp hc with hc | hc
  · rw [List.eq_of_mem_replicate hc]
    exact ⟨by decide, by decide⟩
  · exact hs c hc

theorem nameLt_append_left (pre a b : List Char) : nameLt (pre ++ a) (pre ++ b) = nameLt a b := by
  induction pre with
  | nil => rfl
  | cons c pre ih => simp [nameLt, ih]

theorem mul_add_lt_mul_add {dx dy va vb P : Nat} (hd : dx < dy) (hva : va < P) :
    dx * P + va < dy * P + vb :=
  calc dx * P + va < (dx + 1) * P := by rw [Nat.succ_mul]; omega
    _ ≤ dy * P := Nat.mul_le_mul_right _ hd
    _ ≤ dy * P + vb := Nat.le_add_right _ _

theorem nameLt_iff_decimalValue_lt : ∀ {a b : List Char}, (∀ c ∈ a, IsDigit c) →
    (∀ c ∈ b, IsDigit c) → a.length = b.length → (nameLt a b ↔ decimalValue a < decimalValue b)
  | [], [], _, _, _ => by simp [nameLt, decimalValue]
  | [], _ :: _, _, _, h => absurd h (by simp)
  | _ :: _, [], _, _, h => absurd h (by simp)
  | x :: a, y :: b, ha, hb, hlen => by
    have hx := ha x (List.mem_cons_self _ _)
    have hy := hb y (List.mem_cons_self _ _)
    have ha' : ∀ c ∈ a, IsDigit c := fun c hc ↦ ha c (List.mem_cons_of_mem _ hc)
    have hb' : ∀ c ∈ b, IsDigit c := fun c hc ↦ hb c (List.mem_cons_of_mem _ hc)
    have hlen' : a.length = b.length := Nat.succ.inj hlen
    have hva := decimalValue_lt ha'
    have hvb := decimalValue_lt hb'
    unfold IsDigit at hx hy
    rw [nameLt, decimalValue, decimalValue, hlen']
    rw [hlen'] at hva
    simp only [Bool.or_eq_true, Bool.and_eq_true, decide_eq_true_eq]
    rcases Nat.lt_trichotomy x.toNat y.toNat with hxy | hxy | hxy
    · exact iff_of_true (Or.inl hxy) (mul_add_lt_mul_add (by omega) hva)
    · obtain rfl : x = y := Char.ext (UInt32.toNat.inj hxy)
      simp only [Nat.lt_irrefl, false_or, true_and, Nat.add_lt_add_iff_left]
      exact nameLt_iff_decimalValue_lt ha' hb' hlen'
    · refine iff_of_false ?_ (Nat.not_lt.mpr (mul_add_lt_mul_add (by omega) hvb).le)
      rintro (h | ⟨rfl, -⟩) <;> omega

theorem fileName_data (filename : String) (p r : Nat) :
    (fileName filename p r).data =
      (filename.data ++ '.' :: setw (rankSlen p) (Nat.toDigits 10 p) ++ ['.']) ++
        setw (rankSlen p) (Nat.toDigits 10 r) := by
  simp [fileName, List.append_assoc]

theorem nameLt_fileName_iff (filename : String) {p r s : Nat} (hr : r < p) (hs : s < p) :
    nameLt (fileName filename p r).data (fileName filename p s).data ↔ r < s := by
  obtain ⟨-, hdr, hvr⟩ := toDigits_eq r
  obtain ⟨-, hds, hvs⟩ := toDigits_eq s
  rw [fileName_data, fileName_data, nameLt_append_left,
    nameLt_iff_decimalValue_lt (isDigit_setw hdr) (isDigit_setw hds)
      ((length_setw (length_toDigits_le hr)).trans (length_setw (length_toDigits_le hs)).symm),
    decimalValue_setw, decimalValue_setw, hvr, hvs]

example : fileName "sa" 10 3 = "sa.10.03" := by decide

/-- No two ranks write the same file, and in rank order the file names are sorted by
`std::less<std::string>`. -/
theorem write_files_names_sorted (filename : String) (put : α → List Char)
    (world : List (List α)) :
    ((writeFiles filename put world).map Prod.fst).Nodup ∧
      ((writeFiles filename put world).map fun f ↦ f.1.data).Pairwise fun a b ↦ nameLt a b := by
  have hsorted : (writeFiles filename put world).Pairwise fun f g ↦ nameLt f.1.data g.1.data := by
    rw [writeFiles, List.pairwise_map]
    exact (List.pairwise_lt_range _).imp_of_mem fun hr hs hrs ↦
      (nameLt_fileName_iff filename (List.mem_range.mp hr) (List.mem_range.mp hs)).mpr hrs
  refine ⟨List.pairwise_map.mpr (hsorted.imp fun h heq ↦ ?_), List.pairwise_map.mpr hsorted⟩
  rw [heq, nameLt_irrefl] at h
  cases h

theorem fileContent_eq_intercalate (put : α → List Char) (elems : List α) :
    fileContent put elems = ['\n'].intercalate (elems.map put ++ [[]]) := by
  induction elems with
  | nil => rfl
  | cons x xs ih =>
    obtain ⟨y, ys, hys⟩ := List.exists_cons_of_ne_nil (List.append_ne_nil_of_right_ne_nil
      (xs.map put) (List.cons_ne_nil [] []))
    rw [fileContent, List.map_cons, List.flatten_cons, ← fileContent, ih, List.map_cons,
      List.cons_append, hys]
    simp [List.intercalate]

/-- Cutting each rank's file at its newlines gives back the texts of the rank's elements in order,
then the empty rest after the last `std::endl`. -/
theorem write_files_lines (filename : String) (put : α → List Char) (world : List (List α))
    (hput : ∀ elems ∈ world, ∀ x ∈ elems, '\n' ∉ put x) :
    (writeFiles filename put world).map (fun f ↦ f.2.splitOn '\n') =
      world.map fun elems ↦ elems.map put ++ [[]] := by
  conv_rhs => rw [← Collectives.map_range_getD world []]
  rw [writeFiles, List.map_map, List.map_map]
  refine List.map_congr_left fun r hr ↦ ?_
  have helems : ∀ x ∈ world.getD r [], '\n' ∉ put x :=
    hput _ (List.getD_eq_getElem _ _ (List.mem_range.mp hr) ▸ List.getElem_mem _)
  refine (congrArg _ (fileContent_eq_intercalate put _)).trans
    (List.splitOn_intercalate _ _ (fun l hl ↦ ?_) (by simp))
  rcases List.mem_append.mp hl with hl | hl
  · obtain ⟨x, hx, rfl⟩ := List.mem_map.mp hl
    exact helems x hx
  · rw [List.mem_singleton.mp hl]
    exact List.not_mem_nil _

theorem write_files_lines_example :
    (∀ elems ∈ [[1, 20], [3]], ∀ x ∈ elems, '\n' ∉ Nat.toDigits 10 x) ∧
      (writeFiles "sa" (Nat.toDigits 10) [[1, 20], [3]]).map (fun f ↦ f.2.splitOn '\n') =
        [[['1'], ['2', '0'], []], [['3'], []]] :=
  ⟨by decide, (write_files_lines _ _ _ (by decide)).trans (by decide)⟩

end PsacMpi.WriteFiles
