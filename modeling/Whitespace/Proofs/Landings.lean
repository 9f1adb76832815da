import Whitespace.Code.Landing
import Whitespace.Proofs.Confinement

/-!
How control arrives at an op other than from the op before. Branches and entries of dispatchers may
lead to one op in any number: its landing has noted whether there is a branch, and of the entries
the last. Every jump of the machine is along a branch or an entry, and in compiled code each return
site has one place.
-/
namespace Whitespace

theorem getElem?_concat_iff {α : Type} {xs : List α} {x y : α} {n : Nat} :
    (xs ++ [x])[n]? = some y ↔ xs[n]? = some y ∨ n = xs.length ∧ x = y := by
  rw [List.getElem?_append]
  grind

namespace Op

/-- The op at `source` is a branch with one target, which is `address`. -/
def BranchesTo (op : Op) (source address : Nat) : Prop :=
  ∃ offset, op.branchOffset? = some offset ∧ (source : Int) + offset.toInt = address

/-- The op at `source` is a dispatcher, and its entry `k` leads to `address`. -/
def EntersAt (op : Op) (source k address : Nat) : Prop :=
  ∃ table offset, op = .dispatch table ∧ table[k]? = some offset ∧
    (source : Int) + offset.toInt = address

end Op

namespace Landing

variable {ops : List Op} {op : Op} {source address k : Nat} {landings : Array Landing}
  {l before after : Landing}

/-- Some branch leads to `address`. -/
def Branched (ops : List Op) (address : Nat) : Prop :=
  ∃ (source : Nat) (op : Op), ops[source]? = some op ∧ op.BranchesTo source address

/-- Entry `k` of the dispatcher at `source` leads to `address`. -/
def Entered (ops : List Op) (address source k : Nat) : Prop :=
  ∃ op, ops[source]? = some op ∧ op.EntersAt source k address

/-- Some branch or some entry of a dispatcher leads to `address`. -/
def Landed (ops : List Op) (address : Nat) : Prop :=
  Branched ops address ∨ ∃ source k, Entered ops address source k

/-- Of the last dispatcher that leads to `address`, `k` is the last entry that does. -/
def LastEntry (ops : List Op) (address k : Nat) : Prop :=
  ∃ source, IsGreatest {s | ∃ j, Entered ops address s j} source ∧
    IsGreatest {j | Entered ops address source j} k

/-- The landing is that of the ops at `address`. -/
structure Describes (ops : List Op) (address : Nat) (l : Landing) : Prop where
  branch : l.branch = true ↔ Branched ops address
  site : ∀ k, l.site = some k ↔ LastEntry ops address k

/-- What an op at `source` makes of the landing at `address`. -/
structure Noted (op : Op) (source address : Nat) (before after : Landing) : Prop where
  branch : after.branch = true ↔ before.branch = true ∨ op.BranchesTo source address
  site : ∀ k, after.site = some k ↔ IsGreatest {j | op.EntersAt source j address} k ∨
    (∀ j, ¬ op.EntersAt source j address) ∧ before.site = some k

theorem getElem?_update (landings : Array Landing) (target : Int) (change : Landing → Landing)
    (address : Nat) :
    (update landings target change)[address]? =
      if target = address then landings[address]?.map change else landings[address]? := by
  rw [update]
  split
  · next hpos =>
    have hsame : target.toNat = address ↔ target = address := by omega
    simp only [Array.getElem?_modify, hsame]
  · next hneg => rw [if_neg (by omega)]

theorem note_dispatch_concat (landings : Array Landing) (table : List Int32) (offset : Int32)
    (source : Nat) :
    note landings (.dispatch (table ++ [offset]).toArray) source =
      update (note landings (.dispatch table.toArray) source) (Op.target source offset)
        fun l => { l with site := some table.length } := by
  simp [note, List.zipIdx_append]

theorem entersAt_dispatch {table : List Int32} :
    (Op.dispatch table.toArray).EntersAt source k address ↔
      ∃ offset, table[k]? = some offset ∧ (source : Int) + offset.toInt = address := by
  constructor
  · rintro ⟨_, offset, h, hoffset, htarget⟩
    cases h
    exact ⟨offset, by rwa [List.getElem?_toArray] at hoffset, htarget⟩
  · rintro ⟨offset, hoffset, htarget⟩
    exact ⟨_, offset, rfl, by rwa [List.getElem?_toArray], htarget⟩

theorem entersAt_dispatch_concat {table : List Int32} {offset : Int32} :
    (Op.dispatch (table ++ [offset]).toArray).EntersAt source k address ↔
      (Op.dispatch table.toArray).EntersAt source k address ∨
        k = table.length ∧ (source : Int) + offset.toInt = address := by
  simp only [entersAt_dispatch, getElem?_concat_iff]
  constructor
  · rintro ⟨entry, hold | ⟨rfl, rfl⟩, htarget⟩
    · exact .inl ⟨entry, hold, htarget⟩
    · exact .inr ⟨rfl, htarget⟩
  · rintro (⟨entry, hold, htarget⟩ | ⟨rfl, htarget⟩)
    · exact ⟨entry, .inl hold, htarget⟩
    · exact ⟨offset, .inr ⟨rfl, rfl⟩, htarget⟩

/-- The entries of a table are noted one after the other, so the last one stays. -/
theorem noted_dispatch (hbefore : landings[address]? = some before) (table : List Int32) :
    ∃ after, (note landings (.dispatch table.toArray) source)[address]? = some after ∧
      Noted (.dispatch table.toArray) source address before after := by
  have hbranch : ∀ table, ¬ (Op.dispatch table).BranchesTo source address := by
    rintro table ⟨_, hoffset, _⟩
    cases hoffset
  induction table using List.reverseRecOn with
  | nil =>
    refine ⟨before, hbefore, by simp [hbranch], fun k => ?_⟩
    simp [IsGreatest, entersAt_dispatch]
  | append_singleton table offset ih =>
    obtain ⟨after, hafter, hnoted⟩ := ih
    rw [note_dispatch_concat, getElem?_update, hafter]
    by_cases htarget : Op.target source offset = address
    · rw [if_pos htarget]
      have hlast : IsGreatest {j | (Op.dispatch (table ++ [offset]).toArray).EntersAt source j
          address} table.length := by
        refine ⟨entersAt_dispatch_concat.mpr (.inr ⟨rfl, htarget⟩), fun j hj => ?_⟩
        obtain ⟨entry, hentry, _⟩ := entersAt_dispatch.mp hj
        have hlt := (List.getElem?_eq_some_iff.mp hentry).1
        rw [List.length_append, List.length_singleton] at hlt
        exact Nat.le_of_lt_succ hlt
      refine ⟨_, rfl, by simpa [hbranch] using hnoted.branch, fun k => ?_⟩
      constructor
      · rintro ⟨⟩
        exact .inl hlast
      · rintro (hk | ⟨hnone, _⟩)
        · exact congrArg some (hlast.unique hk)
        · exact absurd hlast.1 (hnone _)
    · rw [if_neg htarget]
      have hsame : ∀ j, (Op.dispatch (table ++ [offset]).toArray).EntersAt source j address ↔
          (Op.dispatch table.toArray).EntersAt source j address :=
        fun j => entersAt_dispatch_concat.trans (or_iff_left fun h => htarget h.2)
      refine ⟨after, rfl, by simpa [hbranch] using hnoted.branch, fun k => ?_⟩
      simp only [hsame]
      exact hnoted.site k

theorem noted_branch {offset : Int32} (hbefore : landings[address]? = some before)
    (hoffset : op.branchOffset? = some offset) :
    ∃ after, (update landings (Op.target source offset)
        fun l => { l with branch := true })[address]? = some after ∧
      Noted op source address before after := by
  have hsite : ∀ j, ¬ op.EntersAt source j address := by
    rintro j ⟨_, _, rfl, _⟩
    cases hoffset
  have hbranch : op.BranchesTo source address ↔ Op.target source offset = address := by
    simp [Op.BranchesTo, Op.target, hoffset]
  rw [getElem?_update, hbefore]
  split
  · next htarget => exact ⟨_, rfl, by simp [hbranch, htarget], by simp [hsite, IsGreatest]⟩
  · next htarget => exact ⟨_, rfl, by simp [hbranch, htarget], by simp [hsite, IsGreatest]⟩

theorem noted_note (hbefore : landings[address]? = some before) (op : Op) (source : Nat) :
    ∃ after, (note landings op source)[address]? = some after ∧
      Noted op source address before after := by
  cases op with
  | dispatch table => exact noted_dispatch hbefore table.toList
  | jump | jumpIfZero | jumpIfNegative => exact noted_branch hbefore rfl
  | _ =>
    refine ⟨before, hbefore, ?_, ?_⟩
    · simp [Op.BranchesTo, Op.branchOffset?]
    · simp [Op.EntersAt, IsGreatest]

theorem branched_concat :
    Branched (ops ++ [op]) address ↔ Branched ops address ∨ op.BranchesTo ops.length address := by
  simp only [Branched, getElem?_concat_iff]
  constructor
  · rintro ⟨source, op', hold | ⟨rfl, rfl⟩, hbranch⟩
    · exact .inl ⟨source, op', hold, hbranch⟩
    · exact .inr hbranch
  · rintro (⟨source, op', hold, hbranch⟩ | hbranch)
    · exact ⟨source, op', .inl hold, hbranch⟩
    · exact ⟨_, _, .inr ⟨rfl, rfl⟩, hbranch⟩

theorem entered_concat :
    Entered (ops ++ [op]) address source k ↔
      Entered ops address source k ∨ source = ops.length ∧ op.EntersAt source k address := by
  simp only [Entered, getElem?_concat_iff]
  constructor
  · rintro ⟨op', hold | ⟨rfl, rfl⟩, henters⟩
    · exact .inl ⟨op', hold, henters⟩
    · exact .inr ⟨rfl, henters⟩
  · rintro (⟨op', hold, henters⟩ | ⟨rfl, henters⟩)
    · exact ⟨op', .inl hold, henters⟩
    · exact ⟨_, .inr ⟨rfl, rfl⟩, henters⟩

theorem Entered.lt (h : Entered ops address source k) : source < ops.length := by
  obtain ⟨_, hop, _⟩ := h
  exact (List.getElem?_eq_some_iff.mp hop).1

/-- The last of the ops comes after all other dispatchers. -/
theorem lastEntry_concat :
    LastEntry (ops ++ [op]) address k ↔
      IsGreatest {j | op.EntersAt ops.length j address} k ∨
        (∀ j, ¬ op.EntersAt ops.length j address) ∧ LastEntry ops address k := by
  have hlast : ∀ j, Entered (ops ++ [op]) address ops.length j ↔
      op.EntersAt ops.length j address := by
    intro j
    rw [entered_concat]
    exact ⟨fun h => h.elim (fun hold => absurd hold.lt (Nat.lt_irrefl _)) And.right,
      fun h => .inr ⟨rfl, h⟩⟩
  by_cases hnone : ∀ j, ¬ op.EntersAt ops.length j address
  · have hsame : ∀ s j, Entered (ops ++ [op]) address s j ↔ Entered ops address s j := by
      intro s j
      rw [entered_concat]
      exact or_iff_left fun ⟨hs, henters⟩ => hnone j (hs ▸ henters)
    simp [LastEntry, hsame, hnone, IsGreatest]
  · obtain ⟨j, hj⟩ := not_forall_not.mp hnone
    have hsource : IsGreatest {s | ∃ j, Entered (ops ++ [op]) address s j} ops.length := by
      refine ⟨⟨j, (hlast j).mpr hj⟩, fun s ⟨i, hi⟩ => ?_⟩
      have hlt := hi.lt
      rw [List.length_append, List.length_singleton] at hlt
      exact Nat.le_of_lt_succ hlt
    constructor
    · rintro ⟨s, hs, hk⟩
      obtain rfl := hs.unique hsource
      simp only [hlast] at hk
      exact .inl hk
    · rintro (hk | ⟨hnone', _⟩)
      · refine ⟨_, hsource, ?_⟩
        simp only [hlast]
        exact hk
      · exact absurd hnone' hnone

theorem Describes.concat (h : Describes ops address before)
    (hnoted : Noted op ops.length address before after) :
    Describes (ops ++ [op]) address after := by
  refine ⟨?_, fun k => ?_⟩
  · rw [hnoted.branch, h.branch, branched_concat]
  · rw [hnoted.site, h.site, lastEntry_concat]

theorem describes_nil (address : Nat) : Describes [] address none := by
  refine ⟨?_, fun k => ?_⟩
  · simp [none, Branched]
  · simp [none, LastEntry, Entered, IsGreatest]

theorem exists_describes (ops : Array Op) (h : address < ops.size) :
    ∃ l, (all ops)[address]? = some l ∧ Describes ops.toList address l := by
  rw [all]
  generalize ops.size = size at h
  induction ops.toList using List.reverseRecOn with
  | nil => exact ⟨none, by simp [h], describes_nil address⟩
  | append_singleton ops op ih =>
    obtain ⟨before, hbefore, hdescribes⟩ := ih
    obtain ⟨after, hafter, hnoted⟩ := noted_note hbefore op ops.length
    refine ⟨after, ?_, hdescribes.concat hnoted⟩
    simpa [List.zipIdx_append] using hafter

/-- There is a last entry if there is any, since ops and tables end. -/
theorem exists_lastEntry (h : Entered ops address source k) : ∃ k, LastEntry ops address k := by
  have hsources : BddAbove {s | ∃ j, Entered ops address s j} :=
    ⟨ops.length, fun s ⟨_, hs⟩ => Nat.le_of_lt hs.lt⟩
  obtain ⟨last, hlast⟩ := hsources.exists_isGreatest_of_nonempty ⟨source, k, h⟩
  have hentries : BddAbove {j | Entered ops address last j} := by
    obtain ⟨j, op, hop, table, _, rfl, _⟩ := hlast.1
    refine ⟨table.size, ?_⟩
    rintro i ⟨op', hop', table', _, rfl, hentry, _⟩
    cases Option.some.inj (hop.symm.trans hop')
    exact Nat.le_of_lt (Array.getElem?_eq_some_iff.mp hentry).1
  obtain ⟨entry, hentry⟩ := hentries.exists_isGreatest_of_nonempty hlast.1
  exact ⟨entry, last, hlast, hentry⟩

theorem Describes.isSome_site (h : Describes ops address l) :
    l.site.isSome = true ↔ ∃ source k, Entered ops address source k := by
  rw [Option.isSome_iff_exists]
  constructor
  · rintro ⟨k, hk⟩
    obtain ⟨source, _, hentry⟩ := (h.site k).mp hk
    exact ⟨source, k, hentry.1⟩
  · rintro ⟨source, k, hentered⟩
    obtain ⟨last, hlast⟩ := exists_lastEntry hentered
    exact ⟨last, (h.site last).mpr hlast⟩

end Landing

namespace Machine

variable {limits : Limits} {ops : Array Op} {op : Op} {m m' : Machine}

open Landing (Landed)

/-- The op at hand is a jump that is taken, or a dispatcher. -/
def Transfers (m : Machine) : Op → Prop
  | .jump _ | .dispatch _ => True
  | .jumpIfZero _ => m.data.stack.items.head? = some 0
  | .jumpIfNegative _ => ∃ w, m.data.stack.items.head? = some w ∧ w < 0
  | _ => False

theorem address_of_goto {size : Nat} {offset : Int32} (h : m.goto size offset = .running m') :
    (m.address : Int) + offset.toInt = m'.address := by
  rw [goto] at h
  split at h
  · next hinside =>
    cases h
    exact (Int.toNat_of_nonneg hinside.1).symm
  · cases h

theorem address_of_branchIf {size : Nat} {test : Word → Bool} {offset : Int32} {w : Word}
    (htop : m.data.stack.items.head? = some w) (htest : test w = true)
    (h : m.branchIf size test offset = .running m') :
    (m.address : Int) + offset.toInt = m'.address := by
  rw [branchIf] at h
  split at h
  · cases h
  · next v stack hpop =>
    rw [Stack.pop?_eq_some_iff] at hpop
    rw [hpop] at htop
    cases htop
    rw [if_pos htest] at h
    have htarget := address_of_goto h
    exact htarget

theorem entersAt_of_dispatch {size : Nat} {table : Array Int32}
    (h : m.dispatch size table = .running m') :
    ∃ k, (Op.dispatch table).EntersAt m.address k m'.address := by
  rw [dispatch] at h
  split at h
  · cases h
  · next site returns _ =>
    dsimp only at h
    split at h
    · cases h
    · next offset hoffset =>
      have htarget := address_of_goto h
      exact ⟨_, table, offset, rfl, hoffset, htarget⟩

theorem lands_of_exec {size : Nat} (htransfers : m.Transfers op)
    (h : m.exec limits size op = .running m') :
    op.BranchesTo m.address m'.address ∨ ∃ k, op.EntersAt m.address k m'.address := by
  cases op with
  | jump offset => exact .inl ⟨offset, rfl, address_of_goto h⟩
  | jumpIfZero offset =>
    exact .inl ⟨offset, rfl, address_of_branchIf htransfers (by decide) h⟩
  | jumpIfNegative offset =>
    obtain ⟨w, htop, hneg⟩ := htransfers
    exact .inl ⟨offset, rfl, address_of_branchIf htop (by simpa using hneg) h⟩
  | dispatch table => exact .inr (entersAt_of_dispatch h)
  | _ => exact htransfers.elim

theorem landed_of_step (hop : ops[m.address]? = some op) (htransfers : m.Transfers op)
    (h : m.step limits ops = .running m') : Landed ops.toList m'.address := by
  obtain ⟨op', hop', hexec⟩ := exec_of_step h
  obtain rfl := Option.some.inj (hop.symm.trans hop')
  rw [← Array.getElem?_toList] at hop
  rcases lands_of_exec (m := { m with steps := m.steps + 1 }) htransfers hexec with
    hbranch | ⟨k, hentry⟩
  · exact .inl ⟨_, op, hop, hbranch⟩
  · exact .inr ⟨_, k, op, hop, hentry⟩

end Machine

namespace Compiled

open Layout
open Landing (Entered LastEntry)

variable {is : List Instruction} {code : Code}

/-- There is one table, and no two of its entries lead to one address. -/
theorem lastEntry_iff (hc : Compiled is code) (hsize : code.ops.size < 2 ^ 31) {address k : Nat} :
    LastEntry code.ops.toList address k ↔
      Entered code.ops.toList address (dispatcherAddress is) k := by
  have honly : ∀ {s j}, Entered code.ops.toList address s j → s = dispatcherAddress is ∧
      ∃ offset, (table is).toArray[j]? = some offset ∧ (s : Int) + offset.toInt = address := by
    rintro s j ⟨op, hop, t, offset, rfl, hoffset, htarget⟩
    rw [Array.getElem?_toList] at hop
    obtain ⟨hs, rfl⟩ := table_of_fetched (hc.fetched hop)
    exact ⟨hs, offset, hoffset, htarget⟩
  constructor
  · rintro ⟨s, _, hk⟩
    exact (honly hk.1).1 ▸ hk.1
  · intro hk
    refine ⟨_, ⟨⟨k, hk⟩, fun s ⟨j, hj⟩ => (honly hj).1.le⟩, hk, fun j hj => ?_⟩
    obtain ⟨_, a, ha, hatarget⟩ := honly hk
    obtain ⟨_, b, hb, hbtarget⟩ := honly hj
    by_contra hlt
    have hless := (hc.dispatches_table hsize).increasing ha hb (Nat.lt_of_not_le hlt)
    rw [Int32.lt_iff_toInt_lt] at hless
    omega

/-- Behind each call its return site is shown, and nowhere else. -/
theorem existsUnique_lastEntry (hc : Compiled is code) (hsize : code.ops.size < 2 ^ 31) {k : Nat}
    (hk : k < calls is) :
    ∃! address, address < code.ops.size ∧ LastEntry code.ops.toList address k := by
  have hop := hc.dispatch_at (dispatches_of_calls (Nat.zero_lt_of_lt hk))
  have htable := hc.dispatches_table hsize
  rw [← Array.getElem?_toList] at hop
  obtain ⟨offset, hoffset⟩ : ∃ offset, (table is).toArray[k]? = some offset :=
    ⟨_, Array.getElem?_eq_getElem (htable.size ▸ hk)⟩
  obtain ⟨n, i, hi, hcall, _, htarget⟩ := htable.entry hoffset
  have hlt : address is (n + 1) < code.ops.size :=
    hc.address_lt_size (List.getElem?_eq_some_iff.mp hi).1
  rw [address_after_call hi hcall] at hlt
  simp only [hc.lastEntry_iff hsize]
  refine ⟨address is n + 2, ⟨hlt, _, hop, _, offset, rfl, hoffset, htarget⟩, ?_⟩
  rintro b ⟨_, _, hop', t, offset', rfl, hoffset', htarget'⟩
  cases Option.some.inj (hop.symm.trans hop')
  obtain rfl := Option.some.inj (hoffset.symm.trans hoffset')
  omega

end Compiled

end Whitespace
