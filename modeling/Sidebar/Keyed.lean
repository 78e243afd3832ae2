/-!
# Sidebar.Keyed: lists of keys with values, in the order of their first entry

`put` writes a value under a key: in the place of the entry of that key if there is one, behind
the others if there is none.  Main statements: keys stay distinct (`nodup_put`), and a list whose
keys are distinct is what its entries, written one after the other, make (`ofEntries_eq_self`);
looking up a key in such a list finds its one entry (`lookup_eq_some_iff`); writing entries brings
nothing in but them (`mem_of_mem_ofEntries`), and leaves their values alone (`ofEntries_map`).
-/

namespace Sidebar.Keyed

variable {α β γ : Type} [DecidableEq α]

/-- Writes `value` under `key`. -/
def put (key : α) (value : β) : List (α × β) → List (α × β)
  | [] => [(key, value)]
  | e :: es => if e.1 = key then (key, value) :: es else e :: put key value es

/-- Writes entries one after the other. -/
def ofEntries (es : List (α × β)) : List (α × β) := es.foldl (fun done e => put e.1 e.2 done) []

/-- The keys of a list. -/
abbrev keys (es : List (α × β)) : List α := es.map (·.1)

theorem keys_put (key : α) (value : β) (es : List (α × β)) :
    keys (put key value es) = if key ∈ keys es then keys es else keys es ++ [key] := by
  induction es with
  | nil => rfl
  | cons e es ih =>
    rw [put]
    by_cases h : e.1 = key
    · simp [keys, h]
    · have h' : ¬ key = e.1 := fun he => h he.symm
      simp only [keys] at ih ⊢
      simp only [h, if_false, List.map_cons, ih, List.mem_cons, h', false_or]
      split <;> rfl

theorem nodup_put {key : α} {value : β} {es : List (α × β)} (h : (keys es).Nodup) :
    (keys (put key value es)).Nodup := by
  rw [keys_put]
  split
  · exact h
  · next hk =>
    refine List.nodup_append.2 ⟨h, by simp, fun a ha b hb e => hk ?_⟩
    rw [← List.mem_singleton.1 hb, ← e]
    exact ha

theorem put_of_notMem {key : α} {value : β} {es : List (α × β)} (h : key ∉ keys es) :
    put key value es = es ++ [(key, value)] := by
  induction es with
  | nil => rfl
  | cons e es ih =>
    simp only [keys, List.map_cons, List.mem_cons, not_or] at h
    rw [put, if_neg (fun he => h.1 he.symm), ih h.2, List.cons_append]

theorem nodup_ofEntries (es : List (α × β)) : (keys (ofEntries es)).Nodup := by
  suffices h : ∀ done : List (α × β), (keys done).Nodup →
      (keys (es.foldl (fun done e => put e.1 e.2 done) done)).Nodup from h [] List.nodup_nil
  induction es with
  | nil => exact fun _ h => h
  | cons e es ih => exact fun done h => ih _ (nodup_put h)

theorem ofEntries_eq_self {es : List (α × β)} (h : (keys es).Nodup) : ofEntries es = es := by
  suffices hs : ∀ done : List (α × β), (keys (done ++ es)).Nodup →
      es.foldl (fun done e => put e.1 e.2 done) done = done ++ es from hs [] h
  clear h
  induction es with
  | nil => exact fun done _ => (List.append_nil done).symm
  | cons e es ih =>
    intro done h
    have hd : e.1 ∉ keys done := by
      simp only [keys, List.map_append, List.map_cons] at h
      exact fun hm => (List.nodup_append.1 h).2.2 _ hm _ (by simp) rfl
    rw [List.foldl_cons, put_of_notMem hd, ih _ (by simpa using h), List.append_assoc]
    rfl

theorem put_map (f : β → γ) (key : α) (value : β) (es : List (α × β)) :
    put key (f value) (es.map fun e => (e.1, f e.2)) =
      (put key value es).map fun e => (e.1, f e.2) := by
  induction es with
  | nil => rfl
  | cons e es ih =>
    rw [List.map_cons, put, put]
    split
    · rw [List.map_cons]
    · rw [ih, List.map_cons]

/-- Values can be changed before they are written or afterwards. -/
theorem ofEntries_map (f : β → γ) (es : List (α × β)) :
    ofEntries (es.map fun e => (e.1, f e.2)) = (ofEntries es).map fun e => (e.1, f e.2) := by
  suffices h : ∀ done : List (α × β),
      (es.map fun e => (e.1, f e.2)).foldl (fun done e => put e.1 e.2 done)
          (done.map fun e => (e.1, f e.2)) =
        (es.foldl (fun done e => put e.1 e.2 done) done).map fun e => (e.1, f e.2) from h []
  induction es with
  | nil => exact fun _ => rfl
  | cons e es ih =>
    intro done
    rw [List.map_cons, List.foldl_cons, List.foldl_cons]
    dsimp only
    rw [put_map, ih]

theorem eq_or_mem_of_mem_put {key : α} {value : β} {es : List (α × β)} {e : α × β}
    (h : e ∈ put key value es) : e = (key, value) ∨ e ∈ es := by
  induction es with
  | nil => exact .inl (List.mem_singleton.1 h)
  | cons d es ih =>
    rw [put] at h
    split at h
    · exact (List.mem_cons.1 h).imp_right (List.mem_cons_of_mem _)
    · rcases List.mem_cons.1 h with rfl | h
      · exact .inr List.mem_cons_self
      · exact (ih h).imp_right (List.mem_cons_of_mem _)

/-- What is written is found among the entries. -/
theorem mem_of_mem_ofEntries {es : List (α × β)} {e : α × β} (h : e ∈ ofEntries es) : e ∈ es := by
  suffices hs : ∀ done : List (α × β), e ∈ es.foldl (fun done e => put e.1 e.2 done) done →
      e ∈ done ∨ e ∈ es from (hs [] h).resolve_left List.not_mem_nil
  clear h
  induction es with
  | nil => exact fun _ h => .inl h
  | cons d es ih =>
    intro done h
    rcases ih _ h with hd | he
    · rcases eq_or_mem_of_mem_put hd with rfl | hd
      · exact .inr List.mem_cons_self
      · exact .inl hd
    · exact .inr (List.mem_cons_of_mem _ he)

/-- Where keys are distinct, looking a key up finds its entry. -/
theorem lookup_eq_some_iff [BEq γ] [LawfulBEq γ] {key : γ} {value : β} {es : List (γ × β)}
    (h : (es.map (·.1)).Nodup) : es.lookup key = some value ↔ (key, value) ∈ es := by
  constructor
  · intro hl
    obtain ⟨before, behind, rfl, -⟩ := List.lookup_eq_some_iff.1 hl
    simp
  · intro hm
    obtain ⟨before, behind, rfl⟩ := List.append_of_mem hm
    refine List.lookup_eq_some_iff.2 ⟨before, behind, rfl, fun e he => ?_⟩
    rw [List.map_append, List.map_cons] at h
    refine bne_iff_ne.2 fun hk => ?_
    exact (List.nodup_append.1 h).2.2 e.1 (List.mem_map.2 ⟨e, he, rfl⟩) key (by simp) hk.symm

end Sidebar.Keyed
