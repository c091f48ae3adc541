import LiveBinding.Interpolation.Basic

/-!
# Rendering depends on the placeholders only

A template has one placeholder among `placeholders` for each of its paths, up to the way the path
is written: the first path with these segments. What a template is rendered as depends on what is
looked up for its paths.
-/

namespace LiveBinding.Interpolation

theorem mem_paths_iff {t : Interpolation} {p : KeyPath} :
    p ∈ t.paths ↔ .placeholder p ∈ t.segments := by
  rw [paths, List.mem_filterMap]
  constructor
  · rintro ⟨segment, hmem, hpath⟩
    cases segment with
    | literal s => cases hpath
    | placeholder q =>
      obtain rfl : q = p := by simpa [Segment.path?] using hpath
      exact hmem
  · exact fun h => ⟨_, h, rfl⟩

/-- Lookups that agree on the placeholders render the same text. -/
theorem render_congr {ε : Type} {f g : KeyPath → Except ε String} {segments : List Segment}
    (h : ∀ p, .placeholder p ∈ segments → f p = g p) : render f segments = render g segments := by
  induction segments with
  | nil => rfl
  | cons segment segments ih =>
    have hrest := ih fun p hp => h p (List.mem_cons_of_mem _ hp)
    cases segment with
    | literal s => simp only [render, hrest]
    | placeholder p => simp only [render, hrest, h p (List.mem_cons_self ..)]

/-- If every path has a text, rendering does not fault. -/
theorem exists_render_eq_ok {ε : Type} (f : KeyPath → String) (segments : List Segment) :
    ∃ s, render (fun p => (.ok (f p) : Except ε String)) segments = .ok s := by
  induction segments with
  | nil => exact ⟨"", rfl⟩
  | cons segment segments ih =>
    obtain ⟨s, hs⟩ := ih
    cases segment with
    | literal t => exact ⟨t ++ s, by simp only [render, hs]; rfl⟩
    | placeholder p => exact ⟨f p ++ s, by simp only [render, hs]; rfl⟩

/-- A template that is rendered has a text for each path. -/
theorem exists_of_render_eq_ok {ε : Type} {f : KeyPath → Except ε String}
    {segments : List Segment} {s : String} (h : render f segments = .ok s) {p : KeyPath}
    (hp : .placeholder p ∈ segments) : ∃ t, f p = .ok t := by
  induction segments generalizing s with
  | nil => cases hp
  | cons segment segments ih =>
    cases segment with
    | literal t =>
      cases hrest : render f segments with
      | error e => simp [render, hrest, bind, Except.bind] at h
      | ok rest => exact ih hrest ((List.mem_cons.1 hp).resolve_left nofun)
    | placeholder q =>
      cases hq : f q with
      | error e => simp [render, hq, bind, Except.bind] at h
      | ok t =>
        rcases List.mem_cons.1 hp with heq | hp
        · exact ⟨t, by rw [Segment.placeholder.inj heq, hq]⟩
        · cases hrest : render f segments with
          | error e => simp [render, hq, hrest, bind, Except.bind] at h
          | ok rest => exact ih hrest hp

theorem exists_mem_firstOfEachPath {ps : List KeyPath} {p : KeyPath} (h : p ∈ ps) :
    ∃ q ∈ firstOfEachPath ps, q.segments = p.segments := by
  induction ps with
  | nil => cases h
  | cons r ps ih =>
    by_cases hsame : r.segments = p.segments
    · exact ⟨r, List.mem_cons_self .., hsame⟩
    · rcases List.mem_cons.1 h with rfl | h
      · exact absurd rfl hsame
      · obtain ⟨q, hq, hqp⟩ := ih h
        refine ⟨q, List.mem_cons_of_mem _ (List.mem_filter.2 ⟨hq, ?_⟩), hqp⟩
        rw [bne_iff_ne, hqp]
        exact Ne.symm hsame

/-- Every path of a template has a placeholder with the same segments. -/
theorem exists_mem_placeholders {t : Interpolation} {p : KeyPath} (h : p ∈ t.paths) :
    ∃ q ∈ t.placeholders, q.segments = p.segments :=
  exists_mem_firstOfEachPath h

theorem sublist_firstOfEachPath (ps : List KeyPath) : (firstOfEachPath ps).Sublist ps := by
  induction ps with
  | nil => exact .slnil
  | cons p ps ih => exact (List.filter_sublist.trans ih).cons_cons p

theorem nodup_segments_firstOfEachPath (ps : List KeyPath) :
    ((firstOfEachPath ps).map KeyPath.segments).Nodup := by
  induction ps with
  | nil => exact List.nodup_nil
  | cons p ps ih =>
    rw [firstOfEachPath, List.map_cons, List.nodup_cons]
    refine ⟨fun hp => ?_, ih.sublist (List.filter_sublist.map _)⟩
    obtain ⟨q, hq, hsame⟩ := List.mem_map.1 hp
    exact bne_iff_ne.1 (List.mem_filter.1 hq).2 hsame

/-- Each path has one placeholder. -/
theorem nodup_placeholders (t : Interpolation) : t.placeholders.Nodup :=
  List.Pairwise.of_map KeyPath.segments (fun _ _ hne heq => hne (congrArg _ heq))
    (nodup_segments_firstOfEachPath t.paths)

/-- The paths `qs` are the first ones of each list of segments among the paths `ps`, in order. -/
structure IsFirsts (ps qs : List KeyPath) : Prop where
  sublist : qs.Sublist ps
  nodup : (qs.map KeyPath.segments).Nodup
  exists_mem : ∀ p ∈ ps, ∃ q ∈ qs, q.segments = p.segments
  /-- No path with the same segments comes before. -/
  find_eq : ∀ q ∈ qs, ps.find? (·.segments == q.segments) = some q

theorem find?_of_mem_firstOfEachPath {ps : List KeyPath} {q : KeyPath}
    (h : q ∈ firstOfEachPath ps) : ps.find? (·.segments == q.segments) = some q := by
  induction ps with
  | nil => cases h
  | cons p ps ih =>
    rw [List.find?_cons]
    rcases List.mem_cons.1 h with rfl | h
    · simp
    · obtain ⟨hq, hne⟩ := List.mem_filter.1 h
      rw [beq_eq_false_iff_ne.2 (Ne.symm (bne_iff_ne.1 hne))]
      exact ih hq

/-- The placeholders are the first paths of each list of segments. -/
theorem isFirsts_placeholders (t : Interpolation) : IsFirsts t.paths t.placeholders where
  sublist := sublist_firstOfEachPath t.paths
  nodup := nodup_segments_firstOfEachPath t.paths
  exists_mem _ := exists_mem_placeholders
  find_eq _ := find?_of_mem_firstOfEachPath

theorem mem_paths_of_mem {t : Interpolation} {p : KeyPath} (h : p ∈ t.placeholders) :
    p ∈ t.paths :=
  (sublist_firstOfEachPath t.paths).subset h

theorem placeholders_ne_nil {t : Interpolation} (h : t.hasPlaceholders = true) :
    t.placeholders ≠ [] := by
  rw [hasPlaceholders, Bool.not_eq_true', List.isEmpty_eq_false_iff] at h
  obtain ⟨p, hp⟩ := List.exists_mem_of_ne_nil _ h
  obtain ⟨q, hq, -⟩ := exists_mem_placeholders hp
  exact List.ne_nil_of_mem hq

end LiveBinding.Interpolation
