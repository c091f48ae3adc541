import LiveBinding.Proofs.Template.Node
import LiveBinding.Proofs.Termination.Walk

/-!
# What a walk over a template does

A walk comes to a node, then to the nodes that are below it at this moment, then to its siblings.
It touches no other node, however it ends. If it ends without a fault, the nodes depict what their
template becomes; if it faults, its fault is that of the template.

## Key definitions

- `Document.Worked`: what may happen to a document while nodes are compiled
- `Setting.Finished`: nodes that have been compiled
- `Setting.Works`: what a walk does with nodes, whatever its result

## Key results

- `Setting.compileLeaf_cases`, `Setting.compileElement_cases`: one node
- `Setting.Works.leaf`, `Setting.Works.element`: one node, and then the rest of a walk
- `Setting.Walks.works`: a whole walk
-/

namespace LiveBinding

variable {σ : Type}

open World

/-- What is left of the content of a node when a template has been compiled: a text without
placeholders and a comment stay as they are, and so do the children of an element without a
directive that replaces them. -/
def Content.Kept {κ : Type} (c c' : Content κ) : Prop :=
  match c with
  | .comment s => c' = .comment s
  | .text s => ∃ s', c' = .text s' ∧ (containsPlaceholder s.toList = false → s' = s)
  | .element e => ∃ e', c' = .element e' ∧ e'.tag = e.tag ∧
    (¬ Fields.fills e.attributes → e'.children = e.children)

theorem Content.Kept.refl {κ : Type} (c : Content κ) : c.Kept c := by
  cases c with
  | element e => exact ⟨e, rfl, rfl, fun _ => rfl⟩
  | text s => exact ⟨s, rfl, fun _ => rfl⟩
  | comment s => rfl

namespace Document

variable {κ : Type} {d d₁ d₂ : Document κ} {n : NodeId} {inner inner' fp : List NodeId}

/-- The nodes `fp` may have been compiled. Other nodes keep their content, and only children that
a directive replaces lose their parent. -/
structure Worked (d : Document κ) (fp : List NodeId) (d' : Document κ) : Prop where
  frames : d.Frames (· ∈ fp) d'
  parents : d.KeepsParents
    (fun m => ∃ p ∈ fp, m ∈ d.children p ∧ Fields.fills (d.attributes p)) d'
  kept : ∀ n c, d.content? n = some c → ∃ c', d'.content? n = some c' ∧ c.Kept c'

theorem Worked.refl (fp : List NodeId) (d : Document κ) : d.Worked fp d :=
  ⟨.refl _ d, .refl _ d, fun _ c hc => ⟨c, hc, .refl c⟩⟩

theorem Worked.mono {fp' : List NodeId} (h : d.Worked fp d₁) (hfp : fp ⊆ fp') :
    d.Worked fp' d₁ where
  frames := h.frames.mono fun _ _ hm => hfp hm
  parents := h.parents.mono fun _ _ ⟨p, hp, hm⟩ => ⟨p, hfp hp, hm⟩
  kept := h.kept

/-- A node is compiled, and then the nodes that are below it at this moment and further nodes. -/
theorem Worked.step (h : d.Worked [n] d₁) (h' : d₁.Worked (inner' ++ fp) d₂)
    (hn : n ∉ inner' ++ fp) (hfp : ∀ m ∈ fp, m < d.size)
    (hinside : ∀ m ∈ inner, m < d.size) (hinner : inner' = inner ∨ ∀ m ∈ inner', d.size ≤ m)
    (hclosed : ∀ p ∈ inner', ∀ m ∈ d₁.children p, m ∈ inner') :
    d.Worked (n :: (inner ++ fp)) d₂ := by
  have hlater : ∀ m, m < d.size → m ∈ inner' ++ fp → m ∈ inner ++ fp := by
    intro m hm hmem
    rcases List.mem_append.1 hmem with hmem | hmem
    · rcases hinner with rfl | hnew
      · exact List.mem_append_left _ hmem
      · exact absurd (hnew m hmem) (Nat.not_le.2 hm)
    · exact List.mem_append_right _ hmem
  have hsame : ∀ m, m < d.size → m ≠ n → d₁.content? m = d.content? m := fun m hm hne =>
    h.frames.content?_eq m hm fun hm' => hne (List.mem_singleton.1 hm')
  refine ⟨⟨Nat.le_trans h.frames.size_le h'.frames.size_le, fun m hm hnot => ?_⟩,
    fun m hm hfree => ?_, fun m c hc => ?_⟩
  · obtain ⟨hne, hnot⟩ := not_or.1 (mt List.mem_cons.2 hnot)
    rw [h'.frames.content?_eq m (Nat.lt_of_lt_of_le hm h.frames.size_le)
      fun hm' => hnot (hlater m hm hm'), hsame m hm hne]
  · have hfirst := h.parents m hm fun ⟨p, hp, hm'⟩ =>
      hfree ⟨n, List.mem_cons_self .., List.mem_singleton.1 hp ▸ hm'⟩
    rw [← hfirst]
    refine h'.parents m (Nat.lt_of_lt_of_le hm h.frames.size_le) ?_
    rintro ⟨p, hp, hchild, hfills⟩
    by_cases hlt : p < d.size
    · -- A node that was there and is compiled later has the children that it had.
      have hne : p ≠ n := fun he => hn (he ▸ hp)
      have hp' := hsame p hlt hne
      rw [children, element?, hp'] at hchild
      rw [attributes, element?, hp'] at hfills
      exact hfree ⟨p, List.mem_cons_of_mem _ (hlater p hlt hp), hchild, hfills⟩
    · -- A new node has only new children.
      rcases List.mem_append.1 hp with hp | hp
      · rcases hinner with rfl | hnew
        · exact hlt (hinside p hp)
        · exact Nat.not_le.2 hm (hnew m (hclosed p hp m hchild))
      · exact hlt (hfp p hp)
  · obtain ⟨c₁, hc₁, hkept⟩ := h.kept m c hc
    by_cases hne : m = n
    · have hlt := Nat.lt_of_lt_of_le (lt_size_of_content? hc) h.frames.size_le
      exact ⟨c₁, by rw [h'.frames.content?_eq m hlt fun hm => hn (hne ▸ hm), hc₁], hkept⟩
    · obtain rfl : c = c₁ := by
        rw [hsame m (lt_size_of_content? hc) hne, hc] at hc₁
        exact Option.some.inj hc₁
      exact h'.kept m c hc₁

/-- A text with placeholders may get a new text. -/
theorem worked_modifyText {c : String} (hn : d.content? n = some (.text c))
    (hplaceholder : containsPlaceholder c.toList = true) (x : String) :
    d.Worked [n] (d.modifyContent n fun _ => .text x) where
  frames := (frames_modifyContent d n _).mono fun _ _ hm => List.mem_singleton.2 hm
  parents := keepsParents_of_eq fun m => parent?_modifyContent d n m _
  kept m c' hc := by
    rw [content?_modifyContent]
    by_cases hne : n = m
    · subst hne
      obtain rfl := Option.some.inj (hn.symm.trans hc)
      rw [if_pos rfl, hn]
      refine ⟨.text x, rfl, x, rfl, fun hnone => ?_⟩
      rw [hplaceholder] at hnone
      cases hnone
    · rw [if_neg hne]
      exact ⟨c', hc, .refl c'⟩

/-- What the directives of an element leave. -/
theorem Drawn.worked {filled : Prop} {as : Fields String} {ms : List Markup}
    (h : d.Drawn n inner filled as ms d₁) (hn : (d.element? n).isSome)
    (hfilled : filled → Fields.fills (d.attributes n)) : d.Worked [n] d₁ where
  frames := h.frames.mono fun _ _ hm => List.mem_singleton.2 hm
  parents := h.parents.mono fun m _ hm =>
    ⟨n, List.mem_singleton_self n, hm.2, hfilled hm.1⟩
  kept m c hc := by
    by_cases hne : m = n
    · subst hne
      obtain ⟨e, he⟩ := Option.isSome_iff_exists.1 hn
      obtain ⟨e', he'⟩ := Option.isSome_iff_exists.1 h.isElement
      obtain rfl : c = .element e := by
        rw [element?_eq_some_iff, hc] at he
        exact Option.some.inj he
      refine ⟨.element e', element?_eq_some_iff.1 he', e', rfl, ?_, fun hnot => ?_⟩
      · have htag := h.tag_eq
        rw [tag?, tag?, he, he'] at htag
        exact Option.some.inj htag
      · have hchildren := h.children_eq fun hf => hnot (by
          have := hfilled hf
          rwa [attributes, he] at this)
        rw [children, children, he, he'] at hchildren
        exact hchildren
    · exact ⟨c, by rw [h.frames.content?_eq m (lt_size_of_content? hc) hne, hc], .refl c⟩

end Document

namespace Setting

variable {t : Setting σ} {w w' : World σ} {s : Store} {d d' : Document (Listener σ)}
  {n : NodeId} {scope : Scope}

/-! ### One node -/

/-- A text is compiled by filling in its placeholders. -/
theorem compileText_cases (scope : Scope) {c : String} (hs : s.SameData w.store)
    (hd : w.documents[t.document]? = some d) (hn : d.content? n = some (.text c)) :
    (∃ f w', (t.compileNode scope n).runOn w = (.error f, w') ∧ t.Yields w w' d ∧
        t.textOf s c = .error f) ∨
      ∃ made w' d' x, (t.compileNode scope n).runOn w = (.ok made, w') ∧ t.Yields w w' d' ∧
        t.textOf s c = .ok x ∧ d.Worked [n] d' ∧ d'.content? n = some (.text x) := by
  have hsort : d.sort n = .text := by rw [Document.sort, hn]
  rw [compileNode, Act.runOn_bind, runOn_currentDocument hd]
  dsimp only
  rw [hsort, Document.text_of_content? hn]
  dsimp only
  rw [← textOf_congr hs]
  unfold textOf
  by_cases hplaceholder : containsPlaceholder c.toList = true
  · rw [if_pos hplaceholder, if_pos hplaceholder]
    have hdraws := (draws_bindText scope n c w).cases hd
    cases hfilled : w.store.filled t.model c with
    | error f =>
      rw [hfilled] at hdraws
      rcases hdraws with ⟨f', w', hrun, heq, hyields⟩ | ⟨_, _, _, _, heq, _⟩
      · exact .inl ⟨f, w', by rw [hrun, Except.error.inj heq], hyields, rfl⟩
      · cases heq
    | ok x =>
      rw [hfilled] at hdraws
      rcases hdraws with ⟨_, _, _, heq, _⟩ | ⟨made, g, w', hrun, heq, hyields⟩
      · cases heq
      · obtain rfl := (Except.ok.inj heq).symm
        have hset : d.setText n x = d.modifyContent n fun _ => .text x := by
          rw [Document.setText, hn]
        have hcontent : (d.setText n x).content? n = some (.text x) := by
          rw [hset, Document.content?_modifyContent, if_pos rfl, hn]
          rfl
        have hworked : d.Worked [n] (d.setText n x) := by
          rw [hset]
          exact Document.worked_modifyText hn hplaceholder x
        exact .inr ⟨made, w', _, x, hrun, hyields, rfl, hworked, hcontent⟩
  · rw [if_neg hplaceholder, if_neg hplaceholder]
    exact .inr ⟨scope, w, d, c, rfl, .refl hd, rfl, .refl _ d, hn⟩

/-- A node that is no element: it fails, or it becomes another such node. -/
theorem compileLeaf_cases (scope : Scope) {c : Content (Listener σ)} {m : Markup}
    (hs : s.SameData w.store) (hd : w.documents[t.document]? = some d) (hn : d.content? n = some c)
    (hc : c.leaf? = some m) :
    (∃ f w', (t.compileNode scope n).runOn w = (.error f, w') ∧ t.Yields w w' d ∧
        ∀ ms, t.Fails s (m :: ms) f) ∨
      ∃ made w' d' c' m', (t.compileNode scope n).runOn w = (.ok made, w') ∧
        t.Yields w w' d' ∧ d.Worked [n] d' ∧ d'.content? n = some c' ∧ c'.leaf? = some m' ∧
        (∀ ms f, t.Fails s ms f → t.Fails s (m :: ms) f) ∧
        ∀ ms ms', t.Compiled s ms ms' → t.Compiled s (m :: ms) (m' :: ms') := by
  cases c with
  | element e => cases hc
  | text x =>
    obtain rfl := Option.some.inj hc
    rcases compileText_cases scope hs hd hn with
      ⟨f, w', hrun, hyields, hfault⟩ | ⟨made, w', d', y, hrun, hyields, hshown, hworked, hn'⟩
    · exact .inl ⟨f, w', hrun, hyields, fun _ => .text hfault⟩
    · exact .inr ⟨made, w', d', .text y, .text y, hrun, hyields, hworked, hn', rfl,
        fun _ _ => .afterText hshown, fun _ _ => .text hshown⟩
  | comment x =>
    obtain rfl := Option.some.inj hc
    have hsort : d.sort n = .other := by rw [Document.sort, hn]
    have hrun : (t.compileNode scope n).runOn w = (.ok scope, w) := by
      rw [compileNode, Act.runOn_bind, runOn_currentDocument hd]
      dsimp only
      rw [hsort]
      rfl
    exact .inr ⟨scope, w, d, .comment x, .comment x, hrun, .refl hd, .refl _ d, hn, rfl,
      fun _ _ => .afterComment, fun _ _ => .comment⟩

/-- An element is compiled by making the bindings of its directives. -/
theorem compileElement_cases (scope : Scope) {e : Element (Listener σ)} {children : List Markup}
    {inner : List NodeId} (hs : s.SameData w.store) (hd : w.documents[t.document]? = some d)
    (hn : d.content? n = some (.element e)) (hdepicts : d.Depicts e.children children inner)
    (hnodup : inner.Nodup) (hnot : n ∉ inner) :
    (∃ f w' d', (t.compileNode scope n).runOn w = (.error f, w') ∧ t.Yields w w' d' ∧
        t.bindings s e.attributes = .error f ∧ d.Worked [n] d') ∨
      ∃ made w' d' bs as, (t.compileNode scope n).runOn w = (.ok made, w') ∧ t.Yields w w' d' ∧
        t.bindings s e.attributes = .ok bs ∧
        (e.attributes.BindsPlain → as = bs.foldl ElementBinding.put e.attributes.plain) ∧
        d.Drawn n inner e.attributes.fills as (bs.foldl ElementBinding.refill children) d' := by
  have hsort : d.sort n = .element := by rw [Document.sort, hn]
  have he : d.element? n = some e := Document.element?_eq_some_iff.2 hn
  have hisElement : (d.element? n).isSome := by rw [he]; rfl
  have hattributes : d.attributes n = e.attributes := by rw [Document.attributes, he]; rfl
  rw [← Document.children_of_content? hn] at hdepicts
  rw [compileNode, Act.runOn_bind, runOn_currentDocument hd]
  dsimp only
  rw [hsort, hattributes]
  rcases installed_compileAttributes scope e.attributes
      (Document.lt_size_of_content? hn) hnot hs hd (.start hisElement hdepicts hnodup) with
    ⟨f, w', d', done, bs, hrun, hyields, hfault, hprefix, hinstalled⟩ |
    ⟨made, w', d', bs, hrun, hyields, hinstalled⟩
  · obtain ⟨as, -, hdrawn⟩ := hinstalled.drawn
    refine .inl ⟨f, w', d', hrun, hyields, hfault, hdrawn.worked hisElement ?_⟩
    rintro ⟨a, ha, hfills⟩
    rw [hattributes]
    exact ⟨a, hprefix.subset ha, hfills⟩
  · obtain ⟨as, hconsumes, hdrawn⟩ := hinstalled.drawn
    rw [hattributes] at hconsumes
    exact .inr ⟨made, w', d', bs, as, hrun, hyields, hinstalled.bindings_eq,
      fun hplain => (hconsumes hplain).eq, hdrawn⟩

/-! ### A whole walk -/

/-- The nodes `ns` depicted the template `ms` and depict what becomes of it, `ms'`. -/
structure Finished (t : Setting σ) (s : Store) (d : Document (Listener σ)) (ns : List NodeId)
    (ms : List Markup) (fp : List NodeId) (ms' : List Markup) (fp' : List NodeId)
    (d' : Document (Listener σ)) : Prop where
  compiled : t.Compiled s ms ms'
  depicts : d'.Depicts ns ms' fp'
  nodup : fp'.Nodup
  subset : ∀ n ∈ fp', n ∈ fp ∨ d.size ≤ n
  attributes : ∀ n ∈ fp', ∀ e, d.element? n = some e → t.Meets s ms e.attributes ∧
    ∃ bs, t.bindings s e.attributes = .ok bs ∧
      d'.attributes n = bs.foldl ElementBinding.put e.attributes.plain

variable {ns ns₁ fp fp₁ fp' : List NodeId} {ms ms₁ ms' ms₁' : List Markup}
  {d₁ d₂ : Document (Listener σ)}

/-- A node before nodes that have been compiled after it. -/
theorem Finished.cons (h : t.Finished s d₁ ns₁ ms₁ fp₁ ms₁' fp' d₂) (hframes : d.Frames (· = n) d₁)
    (hn : n < d.size) (hnot : n ∉ fp₁) (hfp : ∀ m ∈ fp₁, m ∈ fp ∨ d.size ≤ m)
    (hattributes : ∀ e, d.element? n = some e → t.Meets s ms e.attributes ∧
      ∃ bs, t.bindings s e.attributes = .ok bs ∧
        d₂.attributes n = bs.foldl ElementBinding.put e.attributes.plain)
    (hmeets : ∀ as, t.Meets s ms₁ as → t.Meets s ms as) (hcompiled : t.Compiled s ms ms')
    (hdepicts : d₂.Depicts ns ms' (n :: fp')) :
    t.Finished s d ns ms (n :: fp) ms' (n :: fp') d₂ := by
  -- The node itself is not compiled a second time.
  have hapart : n ∉ fp' := by
    intro hmem
    rcases h.subset n hmem with hmem | hle
    · exact hnot hmem
    · exact Nat.not_le.2 (Nat.lt_of_lt_of_le hn hframes.size_le) hle
  refine ⟨hcompiled, hdepicts, List.nodup_cons.2 ⟨hapart, h.nodup⟩, fun m hm => ?_,
    fun m hm e he => ?_⟩
  · rcases List.mem_cons.1 hm with rfl | hm
    · exact .inl (List.mem_cons_self ..)
    · rcases h.subset m hm with hm | hle
      · exact (hfp m hm).imp_left (List.mem_cons_of_mem _)
      · exact .inr (Nat.le_trans hframes.size_le hle)
  · rcases List.mem_cons.1 hm with rfl | hm
    · exact hattributes e he
    · refine (h.attributes m hm e ?_).imp_left (hmeets _)
      rw [hframes.element?_eq (Document.lt_size_of_element? he) fun heq => hapart (heq ▸ hm), he]

/-- A walk with the result `r` over nodes that depict the template `ms` has led from the document
`d` to `d'`. -/
structure Works (t : Setting σ) (s : Store) (d : Document (Listener σ)) (ns : List NodeId)
    (ms : List Markup) (fp : List NodeId) (r : Except Fault Scope) (d' : Document (Listener σ)) :
    Prop where
  worked : d.Worked fp d'
  fails : ∀ f, r = .error f → t.Fails s ms f
  finished : ∀ made, r = .ok made → (∀ as, t.Meets s ms as → Fields.BindsPlain as) →
    ∃ ms' fp', t.Finished s d ns ms fp ms' fp' d'

variable {r : Except Fault Scope}

/-- A fault at the first node. -/
theorem Works.fault {f : Fault} (hworked : d.Worked fp d') (hfails : t.Fails s ms f) :
    t.Works s d ns ms fp (.error f) d' :=
  ⟨hworked, fun _ hf => Except.error.inj hf ▸ hfails, nofun⟩

/-- A node that is no element, and then the other nodes. -/
theorem Works.leaf {c c' : Content (Listener σ)} {m m' : Markup}
    (h : t.Works s d₁ ns ms fp r d₂) (hn : d.content? n = some c) (hc : c.leaf? = some m)
    (hworked : d.Worked [n] d₁) (hn' : d₁.content? n = some c') (hc' : c'.leaf? = some m')
    (hnot : n ∉ fp) (hlt : ∀ k ∈ fp, k < d.size)
    (hfails : ∀ ms f, t.Fails s ms f → t.Fails s (m :: ms) f)
    (hbecomes : ∀ ms ms', t.Compiled s ms ms' → t.Compiled s (m :: ms) (m' :: ms')) :
    t.Works s d (n :: ns) (m :: ms) (n :: fp) r d₂ := by
  have hstep : d.Worked (n :: ([] ++ fp)) d₂ :=
    hworked.step (show d₁.Worked ([] ++ fp) d₂ from h.worked) hnot hlt nofun (.inl rfl) nofun
  refine ⟨hstep, fun f hf => hfails ms f (h.fails f hf), fun made hmade hplain => ?_⟩
  obtain ⟨ms', fp', hfinished⟩ := h.finished made hmade fun as has => hplain as (.later has)
  have hn₂ : d₂.content? n = some c' := by
    rw [h.worked.frames.content?_eq n (Document.lt_size_of_content? hn') hnot, hn']
  refine ⟨m' :: ms', n :: fp', hfinished.cons (hworked.frames.mono fun _ _ hm =>
    List.mem_singleton.1 hm) (Document.lt_size_of_content? hn) hnot (fun _ => .inl)
    (fun e he => ?_) (fun _ => .later) (hbecomes _ _ hfinished.compiled)
    (.leaf hn₂ hc' hfinished.depicts)⟩
  rw [Document.element?_eq_none_of_leaf hn hc] at he
  cases he

/-- An element, and then the nodes that are below it now, and the other nodes. -/
theorem Works.element {e e' : Element (Listener σ)} {children : List Markup}
    {inner inner' : List NodeId} {bs : List (ElementBinding σ)} {as : Fields String}
    (h : t.Works s d₁ (e'.children ++ ns) (bs.foldl ElementBinding.refill children ++ ms)
      (inner' ++ fp) r d₂)
    (hn : d.content? n = some (.element e)) (hinside : d.Depicts e.children children inner)
    (hlt : ∀ k ∈ fp, k < d.size) (hbs : t.bindings s e.attributes = .ok bs)
    (has : e.attributes.BindsPlain → as = bs.foldl ElementBinding.put e.attributes.plain)
    (hdrawn : d.Drawn n inner e.attributes.fills as (bs.foldl ElementBinding.refill children) d₁)
    (hn' : d₁.content? n = some (.element e'))
    (hinside' : d₁.Depicts e'.children (bs.foldl ElementBinding.refill children) inner')
    (hinner : inner' = inner ∨ ∀ k ∈ inner', d.size ≤ k) (hnot : n ∉ inner' ++ fp) :
    t.Works s d (n :: ns) (.element e.tag e.attributes children :: ms) (n :: (inner ++ fp)) r
      d₂ := by
  have he : d.element? n = some e := Document.element?_eq_some_iff.2 hn
  have he' : d₁.element? n = some e' := Document.element?_eq_some_iff.2 hn'
  have hworked : d.Worked [n] d₁ := by
    refine hdrawn.worked (by rw [he]; rfl) fun hfills => ?_
    rwa [Document.attributes, he]
  have hstep := hworked.step h.worked hnot hlt hinside.lt_size hinner
    fun p hp m => hinside'.mem_of_mem_children hp
  have hmeets : ∀ as', t.Meets s (bs.foldl ElementBinding.refill children ++ ms) as' →
      t.Meets s (.element e.tag e.attributes children :: ms) as' := by
    intro as' has'
    rcases meets_append_iff.1 has' with has' | has'
    · exact .inside hbs has'
    · exact .later has'
  refine ⟨hstep, fun f hf => .afterAttributes hbs (h.fails f hf), fun made hmade hplain => ?_⟩
  obtain ⟨ms'', fp'', hfinished⟩ :=
    h.finished made hmade fun as' has' => hplain as' (hmeets as' has')
  -- What is below the element, and what is behind it.
  obtain ⟨below, behind, rfl, hbelow, hbehind⟩ := hfinished.compiled.exists_append
  obtain ⟨fp₁, fp₂, rfl, hdepicts₁, hdepicts₂⟩ := hfinished.depicts.exists_of_append
    (hbelow.length_eq.trans hinside'.length_eq)
  have hn₂ : d₂.content? n = some (.element e') := by
    rw [h.worked.frames.content?_eq n (Document.lt_size_of_content? hn') hnot, hn']
  have htag : e'.tag = e.tag := by
    have htag := hdrawn.tag_eq
    rw [Document.tag?, Document.tag?, he, he'] at htag
    exact Option.some.inj htag
  have hattributes : e'.attributes = bs.foldl ElementBinding.put e.attributes.plain := by
    rw [← has (hplain e.attributes .here), ← hdrawn.attributes_eq, Document.attributes, he']
    rfl
  have hcompiled : t.Compiled s (.element e.tag e.attributes children :: ms)
      (.element e'.tag e'.attributes below :: behind) := by
    rw [htag, hattributes]
    exact .element hbs hbelow hbehind
  refine ⟨_, _, hfinished.cons hdrawn.frames (Document.lt_size_of_content? hn) hnot
    (fun m hm => ?_) (fun e₀ he₀ => ?_) hmeets hcompiled (.element hn₂ hdepicts₁ hdepicts₂)⟩
  · rcases List.mem_append.1 hm with hm | hm
    · rcases hinner with rfl | hnew
      · exact .inl (List.mem_append_left _ hm)
      · exact .inr (hnew m hm)
    · exact .inl (List.mem_append_right _ hm)
  · obtain rfl := Option.some.inj (he.symm.trans he₀)
    refine ⟨.here, bs, hbs, ?_⟩
    rw [Document.attributes, Document.element?_eq_some_iff.2 hn₂, ← hattributes]
    rfl

/-- What a walk does, whatever its result. -/
theorem Walks.works {visited : List NodeId} (h : t.Walks w scope ns visited r w')
    (hs : s.SameData w.store) (hd : w.documents[t.document]? = some d)
    (hdepicts : d.Depicts ns ms fp) (hnodup : fp.Nodup) :
    ∃ d', t.Yields w w' d' ∧ t.Works s d ns ms fp r d' := by
  -- On the way the document changes, but the nodes that are still to come depict their part of the
  -- template in it, since only nodes that have been passed are touched.
  induction h generalizing d ms fp with
  | done w scope =>
    cases hdepicts
    refine ⟨d, .refl hd, .refl _ d, nofun, fun _ _ _ => ⟨[], [], ?_⟩⟩
    exact ⟨.nil, .nil, List.nodup_nil, nofun, nofun⟩
  | @fault w w' scope n ns f h =>
    cases hdepicts with
    | @leaf _ c m _ fp ms hn hc hrest =>
      rcases compileLeaf_cases scope hs hd hn hc with
        ⟨f', w'', hrun, hyields, hfails⟩ | ⟨_, _, _, _, _, hrun, -⟩
      · obtain ⟨hf, rfl⟩ := Prod.mk.inj (h.symm.trans hrun)
        obtain rfl := Except.error.inj hf
        exact ⟨d, hyields, .fault (.refl _ d) (hfails ms)⟩
      · cases h.symm.trans hrun
    | @element _ e _ inner fp children ms hn hinside hrest =>
      obtain ⟨hnot, hnodup⟩ := List.nodup_cons.1 hnodup
      obtain ⟨hinner, -, -⟩ := List.nodup_append'.1 hnodup
      rcases compileElement_cases scope hs hd hn hinside hinner
          (fun hm => hnot (List.mem_append_left _ hm)) with
        ⟨f', w'', d', hrun, hyields, hfault, hworked⟩ | ⟨_, _, _, _, _, hrun, -⟩
      · obtain ⟨hf, rfl⟩ := Prod.mk.inj (h.symm.trans hrun)
        obtain rfl := Except.error.inj hf
        exact ⟨d', hyields, .fault (hworked.mono (by simp)) (.attributes hfault)⟩
      · cases h.symm.trans hrun
  | @node w w₁ w' scope made n ns visited r h hrest ih =>
    cases hdepicts with
    | @leaf _ c m _ fp ms hn hc hrest =>
      obtain ⟨hnot, hnodup⟩ := List.nodup_cons.1 hnodup
      rcases compileLeaf_cases scope hs hd hn hc with
        ⟨_, _, hrun, -⟩ |
        ⟨made', w'', d₁, c', m', hrun, hyields, hworked, hn', hc', hfails, hbecomes⟩
      · cases h.symm.trans hrun
      · obtain ⟨-, rfl⟩ := Prod.mk.inj (h.symm.trans hrun)
        -- Nothing is below the node, so the walk goes on with the other nodes.
        have hnone : d₁.children n = [] :=
          Document.children_eq_nil_of_element?_eq_none (Document.element?_eq_none_of_leaf hn' hc')
        rw [document_eq hyields.document, hnone, List.nil_append] at ih
        have hrest₁ := hrest.of_frames hworked.frames fun m hm hm' =>
          hnot (List.mem_singleton.1 hm' ▸ hm)
        obtain ⟨d₂, hyields', hworks⟩ :=
          ih (hs.trans hyields.sameData) hyields.document hrest₁ hnodup
        exact ⟨d₂, hyields.trans hyields',
          hworks.leaf hn hc hworked hn' hc' hnot hrest.lt_size hfails hbecomes⟩
    | @element _ e _ inner fp children ms hn hinside hrest =>
      obtain ⟨hnot, hnodup⟩ := List.nodup_cons.1 hnodup
      obtain ⟨hinner, hnodup, hapart⟩ := List.nodup_append'.1 hnodup
      rcases compileElement_cases scope hs hd hn hinside hinner
          (fun hm => hnot (List.mem_append_left _ hm)) with
        ⟨_, _, _, hrun, -⟩ | ⟨made', w'', d₁, bs, as, hrun, hyields, hbs, has, hdrawn⟩
      · cases h.symm.trans hrun
      · obtain ⟨-, rfl⟩ := Prod.mk.inj (h.symm.trans hrun)
        obtain ⟨e', he'⟩ := Option.isSome_iff_exists.1 hdrawn.isElement
        have hn' := Document.element?_eq_some_iff.1 he'
        obtain ⟨inner', hinside', hinner', hcases⟩ := hdrawn.depicts
        rw [Document.children_of_content? hn'] at hinside'
        rw [document_eq hyields.document, Document.children_of_content? hn'] at ih
        -- The nodes below the element now are those that were there, or new ones.
        have hnot' : n ∉ inner' ++ fp := by
          rw [List.mem_append, not_or]
          refine ⟨fun hm => ?_, fun hm => hnot (List.mem_append_right _ hm)⟩
          rcases hcases with rfl | hnew
          · exact hnot (List.mem_append_left _ hm)
          · exact Nat.not_le.2 (Document.lt_size_of_content? hn) (hnew n hm)
        have hapart' : List.Disjoint inner' fp := by
          rcases hcases with rfl | hnew
          · exact hapart
          · exact fun m hm hm' => Nat.not_le.2 (hrest.lt_size m hm') (hnew m hm)
        have hrest₁ := hrest.of_frames hdrawn.frames fun m hm (hm' : m = n) =>
          hnot (List.mem_append_right _ (hm' ▸ hm))
        obtain ⟨d₂, hyields', hworks⟩ := ih (hs.trans hyields.sameData) hyields.document
          (hinside'.append hrest₁) (hinner'.append hnodup hapart')
        exact ⟨d₂, hyields.trans hyields', hworks.element hn hinside hrest.lt_size hbs has hdrawn
          hn' hinside' hcases hnot'⟩

end Setting

end LiveBinding
