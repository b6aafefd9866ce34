import Typewright.Proofs.Description.Term

/-!
# Which type is which

A written type gets a key that does not depend on the order in which types are built: two places have the same key
just if they stand for the same type.

* `Site` : a place in a description where a type is written;
* `TypeKey`, `TypeTerm.key` : the key of the type that is written at a place. A union that is written in place carries
  the place in its key;
* `SameType.key_eq`, `sameType_of_key_eq` : keys of separate places tell `SameType`.
-/

namespace Typewright

/-! ## Places -/

/-- For what a type is written. -/
inductive Owner where
  | union (name : Bytes)
  | property (record : Bytes) (index : Nat)
  | top (index : Nat)

/-- A place in the type that is written for an owner: the numbers of the parts that lead to it. -/
structure Site where
  owner : Owner
  path : List Nat

namespace Site

def child (s : Site) (i : Nat) : Site := ⟨s.owner, s.path ++ [i]⟩

/-- A place is another one or a part of it. -/
def Covers (s s' : Site) : Prop := s.owner = s'.owner ∧ s.path <+: s'.path

theorem covers_refl (s : Site) : s.Covers s := ⟨rfl, List.prefix_refl _⟩

theorem Covers.trans {s₁ s₂ s₃ : Site} (h : s₁.Covers s₂) (h' : s₂.Covers s₃) : s₁.Covers s₃ :=
  ⟨h.1.trans h'.1, h.2.trans h'.2⟩

theorem covers_child (s : Site) (i : Nat) : s.Covers (s.child i) := ⟨rfl, List.prefix_append _ _⟩

theorem not_child_covers (s : Site) (i : Nat) : ¬ (s.child i).Covers s := by
  rintro ⟨-, h⟩
  have := h.length_le
  simp [child] at this

theorem eq_of_child_covers {s s' : Site} {i j : Nat} (hi : (s.child i).Covers s') (hj : (s.child j).Covers s') :
    i = j := by
  obtain ⟨l, hl⟩ := hi.2
  obtain ⟨l', hl'⟩ := hj.2
  have h := hl.trans hl'.symm
  simp only [child, List.append_assoc, List.append_cancel_left_eq, List.singleton_append, List.cons.injEq] at h
  exact h.1

end Site

/-! ## Keys -/

/-- What tells a type from all others. -/
inductive TypeKey where
  | primitive (p : Primitive)
  | declared (name : Bytes)
  | array (items : TypeKey)
  | map (values : TypeKey)
  | nullable (site : Site) (inner : TypeKey)
  | union (site : Site) (members : List TypeKey)

/-- The place of a union that is written in place. -/
def TypeKey.site? : TypeKey → Option Site
  | .nullable site _ => some site
  | .union site _ => some site
  | _ => none

namespace TypeTerm

variable (unions : Bytes → Option (List TypeTerm))

open Classical in
mutual

/-- The key of the type that is written at a place. -/
noncomputable def key (site : Site) : TypeTerm → TypeKey
  | .primitive p => .primitive p
  | .declared name => .declared name
  | .array t => .array (t.key site)
  | .map t => .map (t.key site)
  | .nullable t =>
    if AllowsNull unions t then t.key (site.child 0) else .nullable site (t.key (site.child 0))
  | .union ts => .union site (keys site 0 ts)

noncomputable def keys (site : Site) (i : Nat) : List TypeTerm → List TypeKey
  | [] => []
  | t :: ts => t.key (site.child i) :: keys site (i + 1) ts

end

variable {unions} {site : Site} {t : TypeTerm}

theorem key_nullable_of_allowsNull (h : AllowsNull unions t) :
    (nullable t).key unions site = t.key unions (site.child 0) := by
  rw [key, if_pos h]

theorem key_nullable_of_not_allowsNull (h : ¬ AllowsNull unions t) :
    (nullable t).key unions site = .nullable site (t.key unions (site.child 0)) := by
  rw [key, if_neg h]

theorem getElem?_keys (i : Nat) (ts : List TypeTerm) (n : Nat) :
    (keys unions site i ts)[n]? = ts[n]?.map fun t => t.key unions (site.child (i + n)) := by
  induction ts generalizing i n with
  | nil => rfl
  | cons t ts ih =>
    rw [keys]
    cases n with
    | zero => rfl
    | succ n =>
      rw [List.getElem?_cons_succ, List.getElem?_cons_succ, ih, Nat.add_right_comm, Nat.add_assoc]

theorem allowsNull_of_isNull (h : t.isNull = true) : AllowsNull unions t := by
  cases t with
  | primitive p =>
    have hp : p = .null := by simpa [isNull] using h
    subst hp
    exact .null
  | nullable t => exact .nullable t
  | _ => simp [isNull] at h

/-- Only `null` has the key of `null`. -/
theorem key_eq_null_iff : t.key unions site = .primitive .null ↔ t.isNull = true := by
  induction t using TypeTerm.induct generalizing site with
  | primitive p => simp [key, isNull]
  | nullable t ih =>
    by_cases h : AllowsNull unions t
    · rw [key_nullable_of_allowsNull h, ih]
      rfl
    · rw [key_nullable_of_not_allowsNull h]
      constructor
      · exact fun h => by cases h
      · exact fun hnull => absurd (allowsNull_of_isNull (t := t) hnull) h
  | _ => simp [key, isNull]

end TypeTerm

/-! ## Keys tell types apart -/

variable {unions : Bytes → Option (List TypeTerm)}

/-- The same type has the same key at both places. -/
theorem SameType.key_eq : ∀ {t u : TypeTerm}, SameType unions t u → ∀ site site' : Site,
    t.key unions site = u.key unions site'
  | _, _, .primitive p, _, _ => by simp only [TypeTerm.key]
  | _, _, .declared name, _, _ => by simp only [TypeTerm.key]
  | _, _, .array h, site, site' => by simp only [TypeTerm.key, h.key_eq site site']
  | _, _, .map h, site, site' => by simp only [TypeTerm.key, h.key_eq site site']
  | _, _, .left hnull h, site, site' => by
    rw [TypeTerm.key_nullable_of_allowsNull hnull, h.key_eq (site.child 0) site']
  | _, _, .right hnull h, site, site' => by
    rw [TypeTerm.key_nullable_of_allowsNull hnull, h.key_eq site (site'.child 0)]

/-- Neither of two places is part of the other. -/
def Site.Separate (s s' : Site) : Prop := ∀ s'', s.Covers s'' → ¬ s'.Covers s''

theorem Site.Separate.left {s s' : Site} (h : s.Separate s') (i : Nat) : (s.child i).Separate s' :=
  fun s'' hs => h s'' ((s.covers_child i).trans hs)

theorem Site.Separate.right {s s' : Site} (h : s.Separate s') (i : Nat) : s.Separate (s'.child i) :=
  fun s'' hs hs' => h s'' hs ((s'.covers_child i).trans hs')

theorem Site.separate_child (s : Site) {i j : Nat} (h : i ≠ j) : (s.child i).Separate (s.child j) :=
  fun _ hi hj => h (eq_of_child_covers hi hj)

theorem Site.Separate.symm {s s' : Site} (h : s.Separate s') : s'.Separate s := fun s'' hs' hs => h s'' hs hs'

/-- A union that is written in place stands at the place of its type or below. -/
theorem TypeTerm.covers_of_site?_key {t : TypeTerm} {site site' : Site} (h : (t.key unions site).site? = some site') :
    site.Covers site' := by
  induction t using TypeTerm.induct generalizing site with
  | nullable t ih =>
    by_cases hnull : AllowsNull unions t
    · rw [key_nullable_of_allowsNull hnull] at h
      exact (site.covers_child 0).trans (ih h)
    · rw [key_nullable_of_not_allowsNull hnull] at h
      obtain rfl : site = site' := by simpa [TypeKey.site?] using h
      exact site.covers_refl
  | union ts _ =>
    obtain rfl : site = site' := by simpa [key, TypeKey.site?] using h
    exact site.covers_refl
  | _ => simp [key, TypeKey.site?] at h

/-- A type at a separate place is no union that is written here. -/
theorem TypeTerm.site?_key_ne {t : TypeTerm} {site site' : Site} (hsep : site.Separate site') :
    (t.key unions site).site? ≠ some site' :=
  fun h => hsep site' (covers_of_site?_key h) site'.covers_refl

theorem TypeTerm.key_eq_nullable {t u : TypeTerm} {site site' : Site} (hsep : site.Separate site')
    (h : t.key unions site = (nullable u).key unions site') :
    AllowsNull unions u ∧ t.key unions site = u.key unions (site'.child 0) := by
  by_cases hnull : AllowsNull unions u
  · exact ⟨hnull, by rw [h, key_nullable_of_allowsNull hnull]⟩
  · rw [key_nullable_of_not_allowsNull hnull] at h
    exact absurd (by rw [h]; rfl) (site?_key_ne (t := t) hsep)

/-- A union that is written in place has another key at each place, so equal keys come from the same type. -/
theorem sameType_of_key_eq {t u : TypeTerm} {site site' : Site} (hsep : site.Separate site')
    (h : t.key unions site = u.key unions site') : SameType unions t u := by
  have hright : ∀ u', u = .nullable u' → SameType unions t u := by
    rintro u' rfl
    obtain ⟨hnull, h⟩ := TypeTerm.key_eq_nullable hsep h
    exact .right hnull (sameType_of_key_eq (hsep.right 0) h)
  cases t with
  | nullable t =>
    obtain ⟨hnull, h⟩ := TypeTerm.key_eq_nullable hsep.symm h.symm
    exact .left hnull (sameType_of_key_eq (hsep.left 0) h.symm)
  | union ts => exact absurd (by rw [← h]; simp [TypeTerm.key, TypeKey.site?]) (TypeTerm.site?_key_ne (t := u) hsep.symm)
  | primitive p =>
    cases u with
    | nullable u => exact hright u rfl
    | primitive q =>
      obtain rfl : p = q := by simpa [TypeTerm.key] using h
      exact .primitive p
    | _ => simp [TypeTerm.key] at h
  | declared name =>
    cases u with
    | nullable u => exact hright u rfl
    | declared name' =>
      obtain rfl : name = name' := by simpa [TypeTerm.key] using h
      exact .declared name
    | _ => simp [TypeTerm.key] at h
  | array t =>
    cases u with
    | nullable u => exact hright u rfl
    | array u => exact .array (sameType_of_key_eq hsep (by simpa [TypeTerm.key] using h))
    | _ => simp [TypeTerm.key] at h
  | map t =>
    cases u with
    | nullable u => exact hright u rfl
    | map u => exact .map (sameType_of_key_eq hsep (by simpa [TypeTerm.key] using h))
    | _ => simp [TypeTerm.key] at h
termination_by sizeOf t + sizeOf u

/-! ## Keys of several types -/

theorem pair_sublist_iff {a b : α} {l : List α} :
    [a, b].Sublist l ↔ ∃ m n : Nat, m < n ∧ l[m]? = some a ∧ l[n]? = some b := by
  constructor
  · intro h
    obtain ⟨f, hf⟩ := List.sublist_iff_exists_orderEmbedding_getElem?_eq.mp h
    exact ⟨f 0, f 1, f.strictMono Nat.zero_lt_one, (hf 0).symm, (hf 1).symm⟩
  · rintro ⟨m, n, hmn, hm, hn⟩
    obtain ⟨hm', rfl⟩ := List.getElem?_eq_some_iff.mp hm
    have hdrop : b ∈ l.drop (m + 1) := by
      refine List.mem_of_getElem? (i := n - (m + 1)) ?_
      rw [List.getElem?_drop, Nat.add_sub_cancel' hmn]
      exact hn
    have hpair : [l[m], b].Sublist (l.drop m) := by
      rw [List.drop_eq_getElem_cons hm']
      exact (List.singleton_sublist.mpr hdrop).cons_cons _
    exact hpair.trans (List.drop_sublist m l)

section

variable {site : Site} {i : Nat} {ts : List TypeTerm}

theorem TypeTerm.mem_keys_iff {k : TypeKey} :
    k ∈ keys unions site i ts ↔ ∃ n t, ts[n]? = some t ∧ key unions (site.child (i + n)) t = k := by
  simp only [List.mem_iff_getElem?, getElem?_keys, Option.map_eq_some_iff]

/-- Different parts have the same key just if they are the same type. -/
theorem TypeTerm.key_eq_iff_sameType {m n : Nat} (hmn : m ≠ n) {t u : TypeTerm} :
    t.key unions (site.child (i + m)) = u.key unions (site.child (i + n)) ↔ SameType unions t u :=
  ⟨sameType_of_key_eq (site.separate_child (by omega)), fun h => h.key_eq _ _⟩

theorem twoTypes_iff_keys (site : Site) (i : Nat) :
    TwoTypes unions ts ↔ ∃ k ∈ TypeTerm.keys unions site i ts, ∃ k' ∈ TypeTerm.keys unions site i ts, k ≠ k' := by
  constructor
  · rintro ⟨t, u, hsub, hne⟩
    obtain ⟨m, n, hmn, hm, hn⟩ := pair_sublist_iff.mp hsub
    refine ⟨_, TypeTerm.mem_keys_iff.mpr ⟨m, t, hm, rfl⟩, _, TypeTerm.mem_keys_iff.mpr ⟨n, u, hn, rfl⟩, ?_⟩
    rwa [Ne, TypeTerm.key_eq_iff_sameType (Nat.ne_of_lt hmn)]
  · rintro ⟨k, hk, k', hk', hne⟩
    obtain ⟨m, t, hm, rfl⟩ := TypeTerm.mem_keys_iff.mp hk
    obtain ⟨n, u, hn, rfl⟩ := TypeTerm.mem_keys_iff.mp hk'
    rcases Nat.lt_trichotomy m n with hmn | rfl | hmn
    · exact ⟨t, u, pair_sublist_iff.mpr ⟨m, n, hmn, hm, hn⟩, fun h => hne (h.key_eq _ _)⟩
    · obtain rfl := Option.some.inj (hm.symm.trans hn)
      exact absurd rfl hne
    · exact ⟨u, t, pair_sublist_iff.mpr ⟨n, m, hmn, hn, hm⟩, fun h => hne (h.key_eq _ _).symm⟩

theorem TypeTerm.exists_mem_keys (unions : Bytes → Option (List TypeTerm)) (site : Site) (i : Nat) {t : TypeTerm}
    (ht : t ∈ ts) :
    ∃ n, ts[n]? = some t ∧ t.key unions (site.child (i + n)) ∈ keys unions site i ts := by
  obtain ⟨n, hn⟩ := List.mem_iff_getElem?.mp ht
  exact ⟨n, hn, mem_keys_iff.mpr ⟨n, t, hn, rfl⟩⟩

theorem nullAndOne_iff_keys (site : Site) (i : Nat) :
    NullAndOne unions ts ↔ .primitive .null ∈ TypeTerm.keys unions site i ts ∧
      ∃ k ∈ TypeTerm.keys unions site i ts, k ≠ .primitive .null ∧
        ∀ k' ∈ TypeTerm.keys unions site i ts, k' ≠ .primitive .null → k' = k := by
  constructor
  · rintro ⟨⟨t, ht, hnull⟩, ⟨u, hu, hone⟩, hsame⟩
    obtain ⟨m, hm, hmem⟩ := TypeTerm.exists_mem_keys unions site i ht
    obtain ⟨n, hn, hmem'⟩ := TypeTerm.exists_mem_keys unions site i hu
    rw [TypeTerm.key_eq_null_iff.mpr hnull] at hmem
    refine ⟨hmem, _, hmem', by simp [TypeTerm.key_eq_null_iff, hone], ?_⟩
    rintro k hk hknull
    obtain ⟨l, v, hl, rfl⟩ := TypeTerm.mem_keys_iff.mp hk
    have hv : v.isNull = false := by simpa [TypeTerm.key_eq_null_iff] using hknull
    rcases Nat.lt_trichotomy l n with hln | rfl | hln
    · exact (hsame v u (pair_sublist_iff.mpr ⟨l, n, hln, hl, hn⟩) hv hone).key_eq _ _
    · obtain rfl := Option.some.inj (hl.symm.trans hn)
      rfl
    · exact ((hsame u v (pair_sublist_iff.mpr ⟨n, l, hln, hn, hl⟩) hone hv).key_eq _ _).symm
  · rintro ⟨hnull, k, hk, hknull, hsame⟩
    obtain ⟨m, t, hm, ht⟩ := TypeTerm.mem_keys_iff.mp hnull
    obtain ⟨n, u, hn, rfl⟩ := TypeTerm.mem_keys_iff.mp hk
    refine ⟨⟨t, List.mem_of_getElem? hm, TypeTerm.key_eq_null_iff.mp ht⟩,
      ⟨u, List.mem_of_getElem? hn, by simpa [TypeTerm.key_eq_null_iff] using hknull⟩, fun v w hvw hv hw => ?_⟩
    obtain ⟨a, b, hab, ha, hb⟩ := pair_sublist_iff.mp hvw
    have hkv := hsame _ (TypeTerm.mem_keys_iff.mpr ⟨a, v, ha, rfl⟩) (by simp [TypeTerm.key_eq_null_iff, hv])
    have hkw := hsame _ (TypeTerm.mem_keys_iff.mpr ⟨b, w, hb, rfl⟩) (by simp [TypeTerm.key_eq_null_iff, hw])
    exact (TypeTerm.key_eq_iff_sameType (Nat.ne_of_lt hab)).mp (hkv.trans hkw.symm)

end

end Typewright
