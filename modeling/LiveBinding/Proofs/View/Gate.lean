import LiveBinding.Proofs.View.Place

/-!
# Bindings with a gate

An effect with a gate skips a value that it got last. In a place that it shares with other effects,
or with what is typed, this value need not be shown: another effect of the binding has shown a
later one, or the user has typed something. The place then goes wrong if a change of the models
brings the old value back before the effect is visited, and it stays wrong until one of its effects
gets a value again, or another text is typed.

A place is drawn if it shows a text for each path, namely that of the last value of the effect,
unless the effect does not watch its path, or is pending with an open gate. So an effect that is
skipped has its text in the place. A change of the models that brings a value back can break this;
it does not if the place shows what its effects got last at that moment. Whatever shows something in
the place draws it anew.

An effect that has its place for itself, with nobody typing into it, is drawn in any case: what it
gets, it shows at once.

## Key definitions

- `Turn.BringsBack`: a change of the models brings back what an effect got last
- `Turn.Disturbs`: this happens while the place shows something else, and the place has stayed so
- `Binding.Drawn`: the invariant

## Key results

- `Drawn.turn`, `Drawn.display`, `Drawn.resolve`: changes of the models, updates, typed texts
- `carried_drawn`: the invariant, for every execution
- `Scene.displays_of_undisturbed`: after every run, the place displays what it should, if nothing
  disturbs it
- `Scene.undisturbed_of_displays`: otherwise it does not
-/

namespace LiveBinding

variable {σ : Type}

open World

/-! ### Values that come back -/

/-- The path of the effect leads to the value that the effect got last, through cells with which the
effect is registered. -/
def Store.Settles (s : Store) (e : EffectId) (effect : Effect σ) : Prop :=
  ∃ v, s.Watches e effect v ∧ v.same effect.last = true

/-- The change brings back what the effect got last. -/
def Turn.BringsBack (x : Turn σ) (e : EffectId) (effect : Effect σ) : Prop :=
  ¬ x.store.Settles e effect ∧ x.next.Settles e effect

/-- When the change is made, the place of the binding shows a text. -/
def Turn.Shows (x : Turn σ) (b : Binding) (t : String) : Prop :=
  ∃ d c, x.documents[b.node.document]? = some d ∧ d.content? b.node.node = some c ∧
    c.Displays b.sink t

/-- When the change is made, the place of the binding shows what its effects got last, where these
are leaves: the binding is filled with texts for its paths. -/
structure Turn.Mirrors (x : Turn σ) (b : Binding) (s : Moment) (texts : List String → String)
    (t : String) : Prop where
  fill_eq : b.fill texts = .ok t
  shows : x.Shows b t
  texts_eq : ∀ e effect, b.IsIn s x.effects e effect → effect.last.isLeaf = true →
    texts effect.path.segments = x.store.display effect.last

/-- The changes of the models since a moment, newest first. -/
def World.turnsSince (w : World σ) (s : Moment) : List (Turn σ) :=
  w.changes.take (w.changes.length - s.changes)

/-- The change has brought back what an effect in the place got last, while the place showed
something else than what its effects got last. Nothing has happened in the place since: no effect
got a value there, and the text is the same. -/
structure Turn.Disturbs (x : Turn σ) (b : Binding) (s : Moment) (w : World σ) : Prop where
  exists_back : ∃ e effect, b.IsIn s x.effects e effect ∧ x.BringsBack e effect
  not_mirrors : ∀ texts t, ¬ x.Mirrors b s texts t
  isIn_iff : ∀ e effect, b.IsIn s w.effects e effect ↔ b.IsIn s x.effects e effect
  exists_text : ∃ t, x.Shows b t ∧ w.Displays b.sink b.node t

/-- No change of the models since a moment disturbs the place. -/
def Binding.Undisturbed (b : Binding) (s : Moment) (w : World σ) : Prop :=
  ∀ x ∈ w.turnsSince s, ¬ x.Disturbs b s w

/-- Changes that were made since a moment stay so. -/
theorem World.turnsSince_subset {s : Moment} {w w' : World σ} (hs : s.Precedes w)
    (hl : Later w w') : w.turnsSince s ⊆ w'.turnsSince s := by
  obtain ⟨new, hnew⟩ := hl.changes_suffix
  intro x hx
  rw [turnsSince, ← hnew, List.length_append, Nat.add_sub_assoc hs.changes_le, List.take_append,
    Nat.add_sub_cancel_left]
  exact List.mem_append_right _ hx

/-- The change that is made now is one of those since a moment. -/
theorem World.mem_turnsSince_turn {s : Moment} {w : World σ} (hs : s.Precedes w) (t : Store) :
    ⟨w.store, t, w.effects, w.documents⟩ ∈ (w.turn t).turnsSince s := by
  have hlength : (w.turn t).changes.length - s.changes = w.changes.length - s.changes + 1 :=
    Nat.succ_sub hs.changes_le
  rw [turnsSince, hlength]
  exact List.mem_cons_self ..

theorem Store.Watches.settles_iff {s : Store} {e : EffectId} {effect : Effect σ} {v : Value}
    (h : s.Watches e effect v) : s.Settles e effect ↔ v.same effect.last = true := by
  refine ⟨?_, fun hsame => ⟨v, h, hsame⟩⟩
  rintro ⟨u, hu, hsame⟩
  rwa [h.eq_of_get hu.get_eq]

namespace Binding

/-- A change that disturbs the place does so as long as the place is spared. -/
theorem Undisturbed.of_spares {b : Binding} {s : Moment} {w w' : World σ}
    (h : b.Undisturbed s w') (hw : s.Precedes w) (hs : b.Spares s w w') : b.Undisturbed s w := by
  rintro x hx ⟨hback, hmirrors, hin, t, hshows, hdisplay⟩
  exact h x (turnsSince_subset hw hs.later hx) ⟨hback, hmirrors,
    fun e effect => (hs.isIn_iff e effect).trans (hin e effect), t, hshows,
    hs.displays t hdisplay⟩

/-! ### The invariant -/

/-- The place is shared, by several effects or by an effect and the user. -/
def Shares (b : Binding) : Prop := b.sink = .input ∨ b.needs.length ≠ 1

/-- A place that is not shared has one effect. -/
def Alone (b : Binding) (s : Moment) (w : World σ) : Prop :=
  ¬ b.Shares → ∀ e f effect record, b.IsIn s w.effects e effect → b.IsIn s w.effects f record →
    e = f

/-- Among the texts that are shown is that of the last value of the effect. In a shared place it
need not be if the effect does not watch its path, or is pending with an open gate. -/
def Follows (b : Binding) (texts : List String → String) (P : EffectId → Prop) (w : World σ)
    (e : EffectId) (effect : Effect σ) : Prop :=
  (effect.last.isLeaf = true → texts effect.path.segments = w.store.display effect.last) ∨
    b.Shares ∧ ((∀ v, ¬ w.store.Watches e effect v) ∨ P e ∧ ¬ w.store.Settles e effect)

/-- The place shows a text for each of its paths, or a typed text that is still to be written
back. -/
def Draws (b : Binding) (s : Moment) (P : EffectId → Prop) (D : String → Prop) (w : World σ) :
    Prop :=
  ∃ texts x, b.fill texts = .ok x ∧ w.Displays b.sink b.node x ∧
    (D x ∨ ∀ e effect, b.IsIn s w.effects e effect → b.Follows texts P w e effect)

/-- The invariant: a place that is left to the binding is drawn. If it is shared, nothing must
disturb it. -/
def Drawn (b : Binding) (s : Moment) (P : EffectId → Prop) (D : String → Prop) (w : World σ) :
    Prop :=
  b.Holds s w → b.Alone s w → ∀ e effect, b.IsIn s w.effects e effect →
    (∃ x, b.Stands w x) ∧ ((b.Shares → b.Undisturbed s w) → b.Draws s P D w)

variable {b : Binding} {s : Moment} {P P' : EffectId → Prop} {D T : String → Prop}
  {w w' : World σ} {e : EffectId} {effect : Effect σ}

theorem Alone.of_later (h : b.Alone s w') (hl : Later w w') : b.Alone s w := by
  intro hshares e f effect record hin hinf
  obtain ⟨m, hin'⟩ := hin.later hl
  obtain ⟨m', hinf'⟩ := hinf.later hl
  exact h hshares e f _ _ hin' hinf'

/-! ### Effects that follow -/

/-- If the texts are those of the values that are watched, each effect follows: one whose last value
is another one is pending with an open gate. -/
theorem Holds.follows {texts : List String → String} (hh : b.Holds s w) (hw : w.Steady)
    (hf : w.FreshSince s P) (hshares : b.Shares) (hin : b.IsIn s w.effects e effect)
    (htexts : ∀ v, w.store.Watches e effect v →
      texts effect.path.segments = w.store.display v) : b.Follows texts P w e effect := by
  by_cases hwatch : ∃ v, w.store.Watches e effect v
  · obtain ⟨v, hv⟩ := hwatch
    by_cases hagrees : effect.last.Agrees v
    · exact .inl fun hleaf =>
        (htexts v hv).trans (w.store.display_eq_of_agrees hagrees hleaf).symm
    · -- It has not got this value, so it is pending, and the gate lets the value through.
      refine .inr ⟨hshares, .inr ⟨(hh.agrees_or hw hf hin hv).resolve_left hagrees, ?_⟩⟩
      rw [hv.settles_iff]
      exact fun hsame => hagrees (.inl ((Value.same_comm _ _).trans hsame))
  · exact .inr ⟨hshares, .inl fun v hv => hwatch ⟨v, hv⟩⟩

/-- An effect goes on to follow if it does not begin to watch without being pending, and nothing
brings back what it got last. -/
theorem Follows.of_settles {texts : List String → String} (h : b.Follows texts P w e effect)
    (hP : P e → P' e)
    (hwatch : ∀ v, w'.store.Watches e effect v → (∃ u, w.store.Watches e effect u) ∨ P' e)
    (hsettle : b.Shares → w'.store.Settles e effect → w.store.Settles e effect) :
    b.Follows texts P' w' e effect := by
  rcases h with htext | ⟨hshares, hnone | ⟨hPe, hopen⟩⟩
  · exact .inl fun hleaf => (htext hleaf).trans (w'.store.display_eq_of_isLeaf w.store hleaf)
  · -- It did not watch its path. If it does so now, it is pending, with a gate that is open still.
    refine .inr ⟨hshares, ?_⟩
    by_cases hPe : P' e
    · refine .inr ⟨hPe, fun hsettles => ?_⟩
      obtain ⟨u, hu, -⟩ := hsettle hshares hsettles
      exact hnone u hu
    · refine .inl fun v hv => ?_
      rcases hwatch v hv with ⟨u, hu⟩ | hPe'
      · exact hnone u hu
      · exact hPe hPe'
  · exact .inr ⟨hshares, .inr ⟨hP hPe, fun hsettles => hopen (hsettle hshares hsettles)⟩⟩

/-! ### What keeps a place drawn -/

theorem Drawn.mono {D' : String → Prop} (h : b.Drawn s P D w) (hP : ∀ e, P e → P' e)
    (hD : ∀ x, D x → D' x) : b.Drawn s P' D' w := by
  intro hh halone e effect hin
  refine (h hh halone e effect hin).imp_right fun hdraws hcalm => ?_
  obtain ⟨texts, x, hfill, hdisplay, hdrawn⟩ := hdraws hcalm
  exact ⟨texts, x, hfill, hdisplay, hdrawn.imp (hD x) fun hall f record hinf =>
    (hall f record hinf).of_settles (hP f) (fun v hv => .inl ⟨v, hv⟩) fun _ => id⟩

/-- An effect that does not watch its path, or whose gate is shut, need not be visited. -/
theorem Drawn.skip (h : b.Drawn s (fun e' => e' = e ∨ P e') D w)
    (hnot : ∀ effect, b.IsIn s w.effects e effect → ∀ v, w.store.Watches e effect v →
      w.store.Settles e effect) : b.Drawn s P D w := by
  intro hh halone f record hinf
  refine (h hh halone f record hinf).imp_right fun hdraws hcalm => ?_
  obtain ⟨texts, x, hfill, hdisplay, hdrawn⟩ := hdraws hcalm
  refine ⟨texts, x, hfill, hdisplay, hdrawn.imp_right fun hall e' effect hin => ?_⟩
  refine (hall e' effect hin).imp_right (And.imp_right ?_)
  rintro (hnone | ⟨rfl | hP, hopen⟩)
  · exact .inl hnone
  · exact .inl fun v hv => hopen (hnot effect hin v hv)
  · exact .inr ⟨hP, hopen⟩

/-- What spares the place keeps it drawn, if effects go on to follow. -/
theorem Draws.of_spares (h : b.Draws s P D w) (hs : b.Spares s w w')
    (hfollows : ∀ texts e effect, b.IsIn s w'.effects e effect →
      b.Follows texts P w e effect → b.Follows texts P' w' e effect) : b.Draws s P' D w' := by
  obtain ⟨texts, x, hfill, hdisplay, hdrawn⟩ := h
  exact ⟨texts, x, hfill, hs.displays x hdisplay, hdrawn.imp_right fun hall e effect hin =>
    hfollows texts e effect hin (hall e effect (hs.isIn_of e effect hin))⟩

/-- The models change. What is brought back is shown, and effects that begin to watch are
pending. -/
theorem Drawn.turn (h : b.Drawn s P D w) (hw : w.Steady) {t : Store} (hmove : Move w (w.turn t))
    (hP : ∀ e, P e → P' e)
    (hwatch : ∀ e effect v, b.Holds s w → b.IsIn s w.effects e effect → t.Watches e effect v →
      (∃ u, w.store.Watches e effect u) ∨ P' e) : b.Drawn s P' D (w.turn t) := by
  have hs : b.Spares s w (w.turn t) := spares_of_eq hw hmove rfl rfl
  intro hh halone f record hin
  have hbefore := hs.holds_of f record hin hh
  have hprecedes := hw.dated s hbefore.mem
  obtain ⟨⟨x, hstands⟩, hdraws⟩ := h hbefore (halone.of_later hs.later) f record hin
  refine ⟨⟨x, hstands.of_spares hs⟩, fun hcalm => ?_⟩
  by_cases hback : b.Shares ∧ ∃ e effect, b.IsIn s w.effects e effect ∧
      Turn.BringsBack ⟨w.store, t, w.effects, w.documents⟩ e effect
  · -- The place shows what its effects got last: otherwise the change would disturb it.
    obtain ⟨hshares, hback⟩ := hback
    by_cases hmirrors : ∃ texts y,
        Turn.Mirrors ⟨w.store, t, w.effects, w.documents⟩ b s texts y
    · obtain ⟨texts, y, hmirrors⟩ := hmirrors
      exact ⟨texts, y, hmirrors.fill_eq, hmirrors.shows, .inr fun e effect hin =>
        .inl fun hleaf => (hmirrors.texts_eq e effect hin hleaf).trans
          (t.display_eq_of_isLeaf w.store hleaf)⟩
    · exact absurd ⟨hback, fun texts y hy => hmirrors ⟨texts, y, hy⟩, fun _ _ => Iff.rfl, x,
        hstands.displays, hstands.displays⟩ (hcalm hshares _ (mem_turnsSince_turn hprecedes t))
  · -- Nothing comes back in a place that is shared, so all effects go on to follow.
    refine (hdraws fun hshares => (hcalm hshares).of_spares hprecedes hs).of_spares hs
      fun texts e effect hin hfollows =>
        hfollows.of_settles (hP e) (hwatch e effect · hbefore hin) fun hshares hsettles => ?_
    by_contra hopen
    exact hback ⟨hshares, e, effect, hin, hopen, hsettles⟩

/-- The invariant survives what leaves the place alone. -/
theorem Drawn.of_leaves (h : b.Drawn s P D w) (hw : w.Steady) (hmove : Move w w')
    (hl : b.Leaves s w w') : b.Drawn s P D w' := by
  have hs := hl.spares
  rcases hl.turn with hd | ⟨t, rfl⟩
  · intro hh halone f record hin
    have hbefore := hs.holds_of f record hin hh
    obtain ⟨⟨x, hstands⟩, hdraws⟩ :=
      h hbefore (halone.of_later hs.later) f record (hs.isIn_of f record hin)
    refine ⟨⟨x, hstands.of_spares hs⟩, fun hcalm => ?_⟩
    refine (hdraws fun hshares => (hcalm hshares).of_spares (hw.dated s hbefore.mem) hs).of_spares
      hs fun texts e effect hin hfollows => hfollows.of_settles id
      (fun v hv => .inl ⟨v, hl.returns e effect v hin hv⟩) fun _ => ?_
    rintro ⟨v, hv, hsame⟩
    exact ⟨v, hl.returns e effect v hin hv, hsame⟩
  · exact h.turn hw hmove (fun _ => id) fun e effect v _ hin hv =>
      .inl ⟨v, hl.returns e effect v hin hv⟩

/-- A place that shows what it should is drawn. If the place is not shared, its effect must have the
value of now. -/
theorem draws_of_shown (hh : b.Holds s w) (hw : w.Steady) (hf : w.FreshSince s P) {x : String}
    (hx : b.shows w.store = .ok x) (hdisplay : w.Displays b.sink b.node x)
    (hlast : ¬ b.Shares → ∀ e effect v, b.IsIn s w.effects e effect →
      w.store.get effect.path effect.root = .ok v → effect.last.Agrees v) : b.Draws s P D w := by
  obtain ⟨texts, htexts⟩ := exists_texts hx
  refine ⟨texts, x, (shows_eq_fill htexts).symm.trans hx, hdisplay, .inr fun e effect hin => ?_⟩
  have howns := hh.owns e effect hin
  obtain ⟨v, hv, htext⟩ := Store.exists_of_display_eq_ok (htexts effect.path howns.path_mem)
  rw [← howns.root_eq] at hv
  by_cases hshares : b.Shares
  · refine hh.follows hw hf hshares hin fun u hu => ?_
    rw [hu.eq_of_get hv, htext]
  · exact .inl fun hleaf => htext.symm.trans
      (w.store.display_eq_of_agrees (hlast hshares e effect v hin hv) hleaf).symm

/-! ### Updates and compilations -/

/-- An effect in the place is updated: it gets a value and shows the binding. -/
theorem Drawn.display {v : Value} {x : String} (h : b.Drawn s P' D w) (hw : w.Steady)
    (he : w.effects[e]? = some effect) (hp : effect.place? = some (b.sink, b.node))
    (hv : w.Receives e effect v) (hx : effect.shown w.store = .ok x)
    (hf : ((w.deliver e v).writeSink b.sink b.node x).FreshSince s P) :
    b.Drawn s P D ((w.deliver e v).writeSink b.sink b.node x) := by
  have hchange := Change.display w he hp hv hx
  have hmove := Move.change hchange
  intro hh halone f record hinf
  have hh' := hh.of_move hw hmove hinf
  have hin := hh'.isIn hw he hp hv.isAlive
  obtain ⟨⟨_, hstands⟩, -⟩ := h hh' (halone.of_later hmove.later) e effect hin
  have hstands' := hstands.display e v x
  refine ⟨⟨x, hstands'⟩, fun _ => draws_of_shown hh (hmove.steady hw) hf
    (((hh'.owns e effect hin).shown_eq w.store).symm.trans hx) hstands'.displays
    fun hshares g got u hing hu => ?_⟩
  -- The only effect in the place is the one that got the value.
  have heffect : ((w.deliver e v).writeSink b.sink b.node x).effects[e]? =
      some (effect.receive v) := effects_deliver_self he v
  have hin' : b.IsIn s ((w.deliver e v).writeSink b.sink b.node x).effects e (effect.receive v) :=
    ⟨hin.size_le, heffect, hin.place_eq⟩
  obtain rfl := halone hshares e g _ got hin' hing
  obtain rfl := hing.eq_of_effect heffect
  have hsame : Except.ok v = Except.ok u := hv.get_eq.symm.trans hu
  obtain ⟨⟩ := hsame
  exact Value.agrees_self v

/-- Effects that are constructed for the place show what they should, or are not kept. -/
theorem drawn_of_constructs (hw : w.Steady) (hplain : b.sink.IsPlain) (h : w.Constructs w')
    (hf : w'.FreshSince s P) (hin : b.IsIn s w'.effects e effect) (hle : w.effects.size ≤ e) :
    b.Drawn s P D w' := by
  intro hh halone _ _ _
  obtain ⟨f, last, x, hle', hlast, hx, hstands⟩ := hh.exists_stands hw hplain h hin hle
  refine ⟨⟨x, hstands⟩, fun _ => draws_of_shown hh ((Move.change (.construct h)).steady hw) hf hx
    hstands.displays fun hshares g got u hing hu => ?_⟩
  -- The only effect in the place remembers what its construction read.
  obtain rfl := halone hshares f g last got hlast hing
  obtain rfl := hing.eq_of_effect hlast.effect_eq
  have hmemory := h.grows.memory_eq f got hle' hing.effect_eq
  rw [← h.grows.sameData.get_eq, hu] at hmemory
  rw [Effect.last, hmemory]
  exact Value.agrees_self u

/-- A change keeps a place drawn. -/
theorem Drawn.change (h : b.Drawn s P D w) (hw : w.Steady) (hplain : b.sink.IsPlain)
    (hchange : Change w w') (hf : w'.FreshSince s P) : b.Drawn s P D w' := by
  intro hh halone f record hin
  rcases hchange.leaves_or hw hplain hh hin with
    hleaves | ⟨e, effect, v, x, he, hp, hv, hx, rfl⟩ | ⟨hconstructs, e, effect, hnew, hle⟩
  · exact h.of_leaves hw (.change hchange) hleaves hh halone f record hin
  · exact h.display hw he hp hv hx hf hh halone f record hin
  · exact drawn_of_constructs hw hplain hconstructs hf hnew hle hh halone f record hin

/-! ### Typed texts -/

/-- A text that is typed is displayed, and will be written back. -/
theorem Drawn.type (h : b.Drawn s P D w) (hw : w.Steady) (node : NodeRef) (x : String) :
    b.Drawn s P
      (fun t => (Activity.hearing node x (((w.writeSink .input node x).document
        node.document).listenersFor node.node "input")).Typed b.target
          (w.writeSink .input node x) t ∨ D t) (w.writeSink .input node x) := by
  -- The text is typed into the place of the binding, or somewhere else.
  by_cases hplace : b.sink = .input ∧ b.node = node
  · obtain ⟨hsink, rfl⟩ := hplace
    have hmove := Move.type w b.node x
    intro hh halone e effect hin
    obtain ⟨⟨_, hstands⟩, -⟩ :=
      h (hh.of_move hw hmove hin) (halone.of_later hmove.later) e effect hin
    obtain ⟨hstands', htyped⟩ := hstands.type hsink x
    exact ⟨⟨x, hstands'⟩, fun _ => ⟨fun _ => x, x, fill_const hsink x, hstands'.displays,
      .inl (.inl htyped)⟩⟩
  · exact (h.of_leaves hw (.type w node x) (leaves_type hw hplace)).mono (fun _ => id)
      fun _ => .inr

/-- A text that is what the effects of the input watch has been written back. -/
theorem Drawn.resolve (h : b.Drawn s P (fun t => T t ∨ D t) w) (hw : w.Steady)
    (hf : w.FreshSince s P)
    (hT : b.Holds s w → ∀ x, T x → b.sink = .input ∧ ∀ e effect v, b.IsIn s w.effects e effect →
      w.store.Watches e effect v → w.store.display v = x) : b.Drawn s P D w := by
  intro hh halone f record hinf
  refine (h hh halone f record hinf).imp_right fun hdraws hcalm => ?_
  obtain ⟨texts, x, hfill, hdisplay, (hx | hx) | hall⟩ := hdraws hcalm
  · obtain ⟨hsink, htext⟩ := hT hh x hx
    exact ⟨fun _ => x, x, fill_const hsink x, hdisplay, .inr fun e effect hin =>
      hh.follows hw hf (.inl hsink) hin fun v hv => (htext e effect v hin hv).symm⟩
  · exact ⟨texts, x, hfill, hdisplay, .inl hx⟩
  · exact ⟨texts, x, hfill, hdisplay, .inr hall⟩

/-- The path of an input leads through the cell to which a typed text is written back. -/
theorem Holds.mem_of_target (hh : b.Holds s w) {p : KeyPath × MappingId} (hp : p ∈ b.target)
    {c : CellId} (hplace : w.store.placeOf p.1 p.2 = .ok (.cell c)) {cells : List CellId}
    {v : Value} (hin : b.IsIn s w.effects e effect)
    (hleads : w.store.Leads (.mapping effect.root) effect.path.segments cells v) :
    c ∈ cells ∧ v = w.store.value c := by
  obtain ⟨hpath, hroot⟩ := (hh.owns e effect hin).eq_of_mem_target hp
  obtain ⟨d, hd, hplace', rfl⟩ := hleads.placeOf_eq
  rw [hpath, hroot] at hplace'
  have hsame : Place.cell c = .cell d := Except.ok.inj (hplace.symm.trans hplace')
  cases hsame
  exact ⟨hd, rfl⟩

/-- A text that the cell holds already need not be stored. -/
theorem Drawn.of_same_value {c : CellId} {v : Value} (hw : w.Steady) (hf : w.FreshSince s P)
    (hv : (w.store.value c).same v = true)
    (h : b.Drawn s P (fun t => (Activity.setting c v).Typed b.target w t ∨ D t) w) :
    b.Drawn s P D w := by
  refine h.resolve hw hf fun hh x hx => ?_
  obtain ⟨rfl, p, hp, hplace⟩ := hx
  refine ⟨sink_of_mem_target hp, fun e effect u hin hu => ?_⟩
  obtain ⟨cells, hleads, -⟩ := hu
  rw [(hh.mem_of_target hp hplace hin hleads).2, Value.eq_text_of_same hv]
  rfl

/-- A text that is stored under a new key or as a new item is not watched. -/
theorem Drawn.add {path : KeyPath} {root : MappingId} {v : Value} {place : Place} (hw : w.Steady)
    (hplace : w.store.placeOf path root = .ok place) (hne : ∀ c, place ≠ .cell c)
    (hf : (w.turn (w.store.putAt place v)).FreshSince s P)
    (h : b.Drawn s P (fun t => (Activity.assigning path root v).Typed b.target w t ∨ D t) w) :
    b.Drawn s P D (w.turn (w.store.putAt place v)) := by
  have hext := Store.extends_putAt hplace hne v
  have hmove := Move.change (.extend w hext)
  have hleaves : b.Leaves s w (w.turn (w.store.putAt place v)) := leaves_extend hw hext
  refine (h.of_leaves hw hmove hleaves).resolve (hmove.steady hw) hf fun hh x hx => ?_
  obtain ⟨-, hp⟩ := hx
  refine ⟨sink_of_mem_target hp, fun e effect u hin hu => ?_⟩
  obtain ⟨hpath, hroot⟩ := (hh.owns e effect hin).eq_of_mem_target hp
  obtain ⟨d, -, hplace', -⟩ := (hleaves.returns e effect u hin hu).placeOf_eq
  rw [hpath, hroot] at hplace'
  exact absurd (Except.ok.inj (hplace.symm.trans hplace')) (hne d)

/-- A cell gets a new value: the effects that watch it are pending. -/
theorem Drawn.assign {c : CellId} {v : Value} (hw : w.Steady)
    (hf : ((w.assign c v).startPass c).FreshSince s fun e => e ∈ w.liveWatchers c ∨ P e)
    (h : b.Drawn s P (fun t => (Activity.setting c v).Typed b.target w t ∨ D t) w) :
    b.Drawn s (fun e => e ∈ w.liveWatchers c ∨ P e) D ((w.assign c v).startPass c) := by
  have hmove := Move.assign w c v
  have hw₁ := hmove.steady hw
  have hstart := reframes_startPass (w.assign c v) c
  have hspares : b.Spares s w ((w.assign c v).startPass c) :=
    (spares_of_eq hw hmove rfl rfl).trans (hstart.leaves hw₁).spares
  -- An effect that begins to watch its path through the cell is visited.
  have hturn : b.Drawn s (fun e => e ∈ w.liveWatchers c ∨ P e)
      (fun t => (Activity.setting c v).Typed b.target w t ∨ D t) (w.assign c v) := by
    refine h.turn hw hmove (fun _ => .inr) ?_
    rintro e effect u hh hin ⟨cells, hleads, hwatch⟩
    simp only [Store.watchers_assign] at hwatch
    by_cases hc : c ∈ cells
    · exact .inr (.inl (List.mem_filter.2 ⟨hwatch c hc, hh.isAlive e effect hin⟩))
    · exact .inl ⟨u, cells, hleads.of_assign hc, hwatch⟩
  -- What was typed is now the value, if it is watched.
  refine (hturn.of_leaves hw₁ hstart.move (hstart.leaves hw₁)).resolve (hstart.move.steady hw₁) hf
    fun hh x hx => ?_
  obtain ⟨rfl, p, hp, hplace⟩ := hx
  refine ⟨sink_of_mem_target hp, fun e effect u hin hu => ?_⟩
  obtain ⟨cells, hleads, hwatch⟩ := (hstart.leaves hw₁).returns e effect u hin hu
  simp only [World.assign, store_turn, Store.watchers_assign] at hleads hwatch
  have hc : c ∈ cells := by
    by_contra hc
    exact hc ((hspares.holds_of e effect hin hh).mem_of_target hp hplace
      (hspares.isIn_of e effect hin) (hleads.of_assign hc)).1
  have hvalue : (w.store.assign c (.text x)).value c = .text x :=
    Store.value_assign_self (Store.lt_size_of_mem_watchers (hwatch c hc)) _
  have hu' := hleads.eq_value hc (by rw [hvalue]; rfl)
  rw [hu', hvalue]
  rfl

end Binding

open Binding

/-! ### Runs -/

/-- Whatever goes on, a place is drawn. -/
theorem carried_drawn {b : Binding} (hplain : b.sink.IsPlain) (s : Moment) :
    Carried (σ := σ) b.target fun P D w => w.FreshSince s P ∧ b.Drawn s P D w where
  mono h hP hD := ⟨h.1.mono hP, h.2.mono hP hD⟩
  change hw hchange h :=
    have hf := hchange.freshSince hw.sound h.1
    ⟨hf, h.2.change hw hplain hchange hf⟩
  reframe {_ D _ _} hw hframe h :=
    ⟨(carried_freshSince s b.target).reframe (D := D) hw hframe h.1,
      h.2.of_leaves hw hframe.move (hframe.leaves hw)⟩
  abortPass {P D _} hw :=
    ⟨(carried_freshSince s b.target).abortPass (P := P) (D := D) hw,
      fun hh => (not_holds_abortPass hw hh).elim⟩
  abortDispatch hw h := ⟨h.1, fun hh => (not_holds_abortDispatch hw hh).elim⟩
  type node x hw h := ⟨h.1, h.2.type hw node x⟩
  setSame hw hv h := ⟨h.1, h.2.of_same_value hw h.1 hv⟩
  setNew {_ D _ _ _} hw hv h :=
    have hf := (carried_freshSince s b.target).setNew (D := D) hw hv h.1
    ⟨hf, h.2.assign hw hf⟩
  add {_ D _ _ _ _ _} hw hplace hne h :=
    have hf := (carried_freshSince s b.target).add (D := D) hw hplace hne h.1
    ⟨hf, h.2.add hw hplace hne hf⟩
  visitNone {_ D _ _} hw he h :=
    ⟨(carried_freshSince s b.target).visitNone (D := D) hw he h.1,
      h.2.skip fun _ hin => nomatch he.symm.trans hin.effect_eq⟩
  visitSame {_ D _ _ _ _} hw he hg hv hl h :=
    ⟨(carried_freshSince s b.target).visitSame (D := D) hw he hg hv hl h.1,
      h.2.skip fun record hin u hu => by
        -- The gate is shut, so the value that is watched is the last one.
        obtain rfl := hin.eq_of_effect he
        rw [hu.settles_iff, hu.eq_of_get hv]
        exact hl⟩
  deliver {_ D _ _ _ _} hw he hp hv h :=
    ⟨(carried_freshSince s b.target).deliver (D := D) hw he hp hv h.1,
      (h.2.skip fun record hin => (notIsIn_of_placeless he hp record hin).elim).of_leaves hw
        (.deliver _ he hv) (leaves_deliver hw he hv (notIsIn_of_placeless he hp _))⟩
  display {_ D _ _ _ _ sink node _} hw he hp hv hx h := by
    have hf := (carried_freshSince s b.target).display (D := D) hw he hp hv hx h.1
    refine ⟨hf, ?_⟩
    by_cases hplace : b.sink = sink ∧ b.node = node
    · obtain ⟨rfl, rfl⟩ := hplace
      exact h.2.display hw he hp hv hx hf
    · exact (h.2.skip fun _ hin => (hplace (hin.eq_of_place he hp)).elim).of_leaves hw
        (.change (.display _ he hp hv hx)) (leaves_display hw he hp hv hx hplace)

namespace Scene

variable {b : Binding} {s : Moment} {depth : Nat} {source : String} {steps : List Step}
  {w : SceneWorld}

/-- At the beginning there is no effect in the place, and at the end nothing is pending. -/
theorem drawn_after (hplain : b.sink.IsPlain) (hw : w = after depth (start source) steps) :
    w.FreshSince s (fun _ => False) ∧ b.Drawn s (fun _ => False) (fun _ => False) w :=
  hw ▸ carried_after (carried_drawn hplain s) depth source steps
    ⟨freshSince_start s _ source, fun _ _ _ _ hin => (notIsIn_start hin).elim⟩

/-- After every run, the place of a binding displays what it should, if the binding is ready and
nothing disturbs a shared place. -/
theorem displays_of_undisturbed (hplain : b.sink.IsPlain) (hneeds : b.needs ≠ [])
    (hw : w = after depth (start source) steps) (hh : b.Holds s w) (halone : b.Alone s w)
    (hcalm : b.Shares → b.Undisturbed s w) (hready : b.Ready s w) :
    ∃ x, b.shows w.store = .ok x ∧ w.Displays b.sink b.node x := by
  obtain ⟨hfresh, hdrawn⟩ := drawn_after (s := s) hplain hw
  have hsteady : w.Steady := hw ▸ steady_after depth source steps
  obtain ⟨p, hp⟩ := List.exists_mem_of_ne_nil _ hneeds
  obtain ⟨e, effect, _, hin, -⟩ := hready p hp
  obtain ⟨-, hdraws⟩ := hdrawn hh halone e effect hin
  obtain ⟨texts, x, hfill, hdisplay, hdrawn⟩ := hdraws hcalm
  refine ⟨x, (shows_eq_fill fun q hq => ?_).trans hfill, hdisplay⟩
  -- The effect that watches the path has got its value.
  obtain ⟨f, record, v, hinf, rfl, hv, hleaf⟩ := hready q hq
  have hagrees := (hh.agrees_or hsteady hfresh hinf hv).resolve_right id
  have hlast := hagrees.isLeaf_eq.trans hleaf
  rcases hdrawn.resolve_left id f record hinf with htext | ⟨-, hnone | ⟨hP, -⟩⟩
  · rw [← (hh.owns f record hinf).root_eq, hv.get_eq, Except.map, htext hlast,
      w.store.display_eq_of_agrees hagrees hlast]
  · exact (hnone v hv).elim
  · exact hP.elim

/-- What disturbs a place shows in it: a place that displays what it should is undisturbed. -/
theorem undisturbed_of_displays (hplain : b.sink.IsPlain)
    (hw : w = after depth (start source) steps) (hh : b.Holds s w) (hready : b.Ready s w)
    (hone : ∀ e f effect record, b.IsIn s w.effects e effect → b.IsIn s w.effects f record →
      effect.path = record.path → e = f)
    {x : String} (hx : b.shows w.store = .ok x)
    (hdisplay : ∀ t, w.Displays b.sink b.node t → t = x) : b.Undisturbed s w := by
  obtain ⟨hfresh, -⟩ := drawn_after (s := s) hplain hw
  have hsteady : w.Steady := hw ▸ steady_after depth source steps
  rintro turn - ⟨-, hmirrors, hin_iff, t, hshows, ht⟩
  obtain rfl := hdisplay t ht
  -- The place has stayed as it was, and now it shows what its effects got last.
  obtain ⟨texts, htexts⟩ := exists_texts hx
  refine hmirrors texts t
    ⟨(shows_eq_fill htexts).symm.trans hx, hshows, fun e effect hin hleaf => ?_⟩
  have hin' := (hin_iff e effect).2 hin
  have howns := hh.owns e effect hin'
  obtain ⟨f, record, v, hinf, hpath, hv, -⟩ := hready effect.path howns.path_mem
  obtain rfl := hone e f effect record hin' hinf hpath.symm
  obtain rfl := hin'.eq_of_effect hinf.effect_eq
  have hagrees := (hh.agrees_or hsteady hfresh hin' hv).resolve_right id
  have htext := htexts effect.path howns.path_mem
  rw [← howns.root_eq, hv.get_eq] at htext
  rw [← Except.ok.inj htext, ← w.store.display_eq_of_agrees hagrees hleaf]
  exact turn.store.display_eq_of_isLeaf w.store hleaf

end Scene

end LiveBinding
