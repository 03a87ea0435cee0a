import Statechart.Generate.Pool

/-!
# Ids from a pool are free

A name that is taken is tried with one number after the other. Different numbers have different
numerals (`Decimal.text_injective`), so an id that was tried in vain does not come up again, and the
one that is found in the end is free: `NamePool.freshId_not_mem`. A pool that gives out ids
therefore never holds one twice.

`NamePool.Search` describes the search attempt by attempt, with nothing left out of the pool. Every
attempt in vain, the name itself among them, is another one of the ids that are taken, so there are
at most as many numbers to try as ids: `NamePool.exists_search`.
-/

namespace Statechart

/-- Numbers are told apart by their numerals. -/
theorem Decimal.text_injective {m n : Nat} (h : text m = text n) : m = n := by
  have hdigits : digits m = digits n := String.ofList_injective h
  rw [← value_digits m, hdigits, value_digits]

namespace NamePool

theorem numbered_injective {name : String} {m n : Nat} (h : numbered name m = numbered name n) :
    m = n :=
  Decimal.text_injective ((String.append_right_inj name).1 h)

variable (taken : List String) (name : String) (n : Nat)

/-- The search goes upwards. -/
theorem le_firstFree : n ≤ firstFree taken name n := by
  fun_induction firstFree taken name n with
  | case1 taken n _ ih => exact Nat.le_of_succ_le ih
  | case2 => exact Nat.le_refl _

/-- The search ends at a number that makes the name free. -/
theorem numbered_firstFree_not_mem : numbered name (firstFree taken name n) ∉ taken := by
  fun_induction firstFree taken name n with
  | case1 taken n _ ih =>
    -- the id that is left out was tried with a smaller number
    have hlater := le_firstFree (taken.erase (numbered name n)) name (n + 1)
    intro hmem
    refine ih ((List.mem_erase_of_ne fun heq ↦ ?_).2 hmem)
    exact absurd (numbered_injective heq) (Nat.ne_of_gt hlater)
  | case2 _ _ hfree => exact hfree

variable (pool : NamePool)

/-- The id for a name is not taken. -/
theorem freshId_not_mem : pool.freshId name ∉ pool.taken := by
  rw [freshId]
  split
  · exact numbered_firstFree_not_mem pool.taken name pool.size
  · next hfree => exact mt List.contains_iff_mem.2 hfree

theorem fst_claim : (pool.claim name).1 = pool.freshId name := rfl

@[simp] theorem taken_claim : (pool.claim name).2.taken = (pool.claim name).1 :: pool.taken := rfl

/-- A pool in which no id is taken twice stays so. -/
theorem nodup_taken_claim (h : pool.taken.Nodup) : (pool.claim name).2.taken.Nodup :=
  List.nodup_cons.2 ⟨pool.freshId_not_mem name, h⟩

/-! ### The search, attempt by attempt -/

/-- The search for an id for `name` that is not in `taken`. The attempt `id` is made, and as long as
an attempt is taken, the next one is the name with `number` after it, and the number goes up by one.
`Search taken name id number n found` says that the search ends with `found`, after `n` attempts
with a number. -/
inductive Search (taken : List String) (name : String) : String → Nat → Nat → String → Prop where
  | found {id : String} {number : Nat} (free : id ∉ taken) : Search taken name id number 0 id
  | next {id found : String} {number n : Nat} (held : id ∈ taken)
      (rest : Search taken name (numbered name number) (number + 1) n found) :
      Search taken name id number (n + 1) found

theorem numbered_ne_self : numbered name n ≠ name := by
  intro h
  have hempty : Decimal.text n = "" := (String.append_right_inj name).1 (h.trans (by simp))
  exact Decimal.digits_ne_nil n (String.ofList_injective hempty)

/-- Numbers are only passed over if the name is taken with them. -/
theorem numbered_mem_of_lt_firstFree {m : Nat} (hle : n ≤ m) (hlt : m < firstFree taken name n) :
    numbered name m ∈ taken := by
  fun_induction firstFree taken name n with
  | case1 taken n hmem ih =>
    rcases Nat.eq_or_lt_of_le hle with rfl | hnext
    · exact hmem
    · exact List.mem_of_mem_erase (ih hnext hlt)
  | case2 => exact absurd hlt (Nat.not_lt.2 hle)

/-- A name that is taken is an id of the pool, and none with a number. So fewer numbers are tried in
vain than there are ids. -/
theorem firstFree_lt (h : name ∈ taken) : firstFree taken name n < n + taken.length := by
  fun_induction firstFree taken name n with
  | case1 taken n hmem ih =>
    have hlt := ih ((List.mem_erase_of_ne (numbered_ne_self name n).symm).2 h)
    rw [List.length_erase_of_mem hmem] at hlt
    have hpos : 0 < taken.length := List.length_pos_of_mem hmem
    omega
  | case2 => exact Nat.lt_add_of_pos_right (List.length_pos_of_mem h)

variable {taken name n} in
/-- The search goes on over all numbers with which the name is taken. -/
theorem search_numbered {d : Nat} (hheld : ∀ m, n ≤ m → m < n + d → numbered name m ∈ taken)
    (hfree : numbered name (n + d) ∉ taken) :
    Search taken name (numbered name n) (n + 1) d (numbered name (n + d)) := by
  induction d generalizing n with
  | zero => exact .found hfree
  | succ d ih =>
    have hsum : n + (d + 1) = n + 1 + d := by omega
    rw [hsum] at hheld hfree ⊢
    refine .next (hheld n (Nat.le_refl n) (by omega)) ?_
    exact ih (fun m hle hlt ↦ hheld m (by omega) hlt) hfree

/-- **The search for an id ends**, after at most as many attempts with a number as there are ids in
the pool. -/
theorem exists_search :
    ∃ n ≤ pool.size, Search pool.taken name name pool.size n (pool.freshId name) := by
  rw [freshId]
  split
  · next htaken =>
    have hname : name ∈ pool.taken := List.contains_iff_mem.1 htaken
    obtain ⟨d, hd⟩ := Nat.exists_eq_add_of_le (le_firstFree pool.taken name pool.size)
    have hlt : pool.size + d < pool.size + pool.taken.length :=
      hd ▸ firstFree_lt pool.taken name pool.size hname
    refine ⟨d + 1, Nat.lt_of_add_lt_add_left hlt, .next hname ?_⟩
    rw [hd]
    refine search_numbered (fun m hle hlt ↦ ?_) ?_
    · exact numbered_mem_of_lt_firstFree pool.taken name pool.size hle (hd ▸ hlt)
    · exact hd ▸ numbered_firstFree_not_mem pool.taken name pool.size
  · next hfree => exact ⟨0, Nat.zero_le _, .found (mt List.contains_iff_mem.2 hfree)⟩

variable {taken name n} in
/-- A search can end in one way only. -/
theorem Search.unique {id a b : String} {number m : Nat}
    (h : Search taken name id number m a) (h' : Search taken name id number n b) :
    m = n ∧ a = b := by
  induction h generalizing n with
  | found free =>
    cases h' with
    | found _ => exact ⟨rfl, rfl⟩
    | next held _ => exact absurd held free
  | next held _ ih =>
    cases h' with
    | found free => exact absurd held free
    | next _ rest =>
      obtain ⟨rfl, rfl⟩ := ih rest
      exact ⟨rfl, rfl⟩

/-- **How the search ends.** There is one number of attempts after which it does, and it ends with
the id for the name. -/
theorem exists_search_iff :
    ∃ n ≤ pool.size, ∀ m found,
      Search pool.taken name name pool.size m found ↔ m = n ∧ found = pool.freshId name := by
  obtain ⟨n, hle, hsearch⟩ := pool.exists_search name
  refine ⟨n, hle, fun m found ↦ ⟨fun h ↦ h.unique hsearch, ?_⟩⟩
  rintro ⟨rfl, rfl⟩
  exact hsearch

/-- A free name is taken as it is, and only a free one. -/
theorem freshId_eq_self_iff : pool.freshId name = name ↔ name ∉ pool.taken := by
  constructor
  · exact fun h ↦ h ▸ pool.freshId_not_mem name
  · intro h
    rw [freshId, if_neg (mt List.contains_iff_mem.1 h)]

/-- A taken name gets a number. -/
theorem exists_freshId_eq_numbered (h : name ∈ pool.taken) :
    ∃ n, pool.freshId name = numbered name n := by
  rw [freshId, if_pos (List.contains_iff_mem.2 h)]
  exact ⟨_, rfl⟩

end NamePool

end Statechart
