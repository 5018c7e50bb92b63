import ReactiveCells.Proofs.Listening
import ReactiveCells.Proofs.Settling

/-!
# Echoing — what a derived value has told

A derived value hears of the values that come through on its sides and commits the results that are
new (`Recipe.Echoes`). Over a whole run that makes one list: the results of all that came through,
one after the other, without those equal to the one before (`Recipe.Echoed`). It begins with what
the rule makes of what the sides knew at first, and goes on as long as the derived value is
followed, whatever is run.

A derived value that follows one source hears of what the observer of that source is called with,
so it tells the images of these values.

Main statements: `Following.run`, `Recipe.heard_image` and `Recipe.results_image`.
-/

namespace ReactiveCells

variable {V P σ ε : Type}

namespace Recipe

/-- What the sides know when one more value came through. -/
def hear (δ : Recipe V) (vals : Side → V) (h : Side × V) : Side → V :=
  Function.update vals h.1 (δ.view h.1 h.2)

/-- The results of what the sides know at first and after every value that comes through. -/
def results (δ : Recipe V) (vals : Side → V) (hs : List (Side × V)) : List V :=
  (hs.scanl δ.hear vals).map δ.rule.result

/-- What the events of a run tell of a derived value whose sides knew `vals₀` before: what they
know now, and which results were committed. -/
structure Echoed [BEq V] (δ : Recipe V) (feeds : Side → Option (Feed V)) (vals₀ : Side → V)
    (es : List (Event V ε)) (vals : Side → V) : Prop where
  known : vals = (δ.heard feeds es).foldl δ.hear vals₀
  told : δ.rule.result vals₀ :: commits (signals δ.value es) =
    unrepeated (δ.results vals₀ (δ.heard feeds es))

variable {δ : Recipe V} {feeds : Side → Option (Feed V)} {vals₀ vals vals' : Side → V}
  {es es' : List (Event V ε)}

theorem results_concat (hs : List (Side × V)) (h : Side × V) :
    δ.results vals (hs ++ [h]) =
      δ.results vals hs ++ [δ.rule.result (δ.hear (hs.foldl δ.hear vals) h)] := by
  rw [results, results, List.scanl_append, List.map_append]
  rfl

theorem getLast?_results (hs : List (Side × V)) :
    (δ.results vals hs).getLast? = some (δ.rule.result (hs.foldl δ.hear vals)) := by
  rw [results, List.getLast?_map, List.getLast?_scanl]
  rfl

section Echoed

variable [BEq V]

theorem Echoed.nil : δ.Echoed feeds vals₀ ([] : List (Event V ε)) vals₀ :=
  ⟨rfl, rfl⟩

/-- What some more events tell is added. -/
theorem Echoed.append [LawfulBEq V] (h : δ.Echoed feeds vals₀ es vals)
    (h' : δ.Echoes feeds vals es' vals') : δ.Echoed feeds vals₀ (es ++ es') vals' := by
  cases h' with
  | quiet hheard hcommits =>
      refine ⟨?_, ?_⟩
      · rw [heard_append, hheard, List.append_nil]
        exact h.known
      · rw [heard_append, hheard, List.append_nil, signals_append, commits_append, hcommits,
          List.append_nil]
        exact h.told
  | @dealt s v _ hheard hvals htells =>
      have hknown : vals' = δ.hear ((δ.heard feeds es).foldl δ.hear vals₀) (s, v) := by
        rw [← h.known]
        exact hvals
      -- the result told last is that of what the sides knew
      have hlast : (δ.results vals₀ (δ.heard feeds es)).getLast? = some (δ.rule.result vals) := by
        rw [getLast?_results, ← h.known]
      refine ⟨?_, ?_⟩
      · rw [heard_append, hheard, List.foldl_append]
        exact hknown
      · rw [heard_append, hheard, results_concat, ← hknown, signals_append, commits_append,
          ← List.cons_append, h.told]
        rcases htells with ⟨hnone, hsame⟩ | ⟨hone, hne⟩
        · rw [hnone, List.append_nil, unrepeated_concat_same (hlast.trans (congrArg some hsame))]
        · rw [hone, unrepeated_concat_new fun hlast' => hne ?_]
          exact Option.some.inj (hlast.symm.trans hlast')

end Echoed

/-! ## A derived value that follows one source -/

/-- A derived value with one source hears of what the observer of that source is called with. -/
theorem heard_image {F : Feed V} (hF : feeds .left = some F) (hnone : feeds .right = none)
    (es : List (Event V ε)) :
    δ.heard feeds es = (received F.id (signals (δ.root .left) es)).map (Prod.mk .left) := by
  have hside : ∀ p id, δ.side? feeds p id =
      if δ.root .left = p ∧ F.id = id then some .left else none := by
    intro p id
    rw [side?, List.find?_cons, List.find?_cons, List.find?_nil, hF, hnone, Option.any_some,
      Option.any_none]
    by_cases h : δ.root .left = p ∧ F.id = id
    · rw [decide_eq_true h, if_pos h]
    · rw [decide_eq_false h, if_neg h]
  rw [heard, received, signals, List.filterMap_filterMap, List.map_filterMap]
  refine congrArg (List.filterMap · es) (funext fun e => ?_)
  cases e with
  | called p id v =>
      rw [heard?, hside, Event.signal?]
      by_cases hp : p = δ.root .left
      · by_cases hid : id = F.id <;> simp [hp, hid, eq_comm, Signal.handedTo?]
      · simp [hp, Ne.symm hp]
  | committed p v =>
      by_cases hp : p = δ.root .left <;> simp [heard?, hp, Signal.handedTo?]
  | queued p id =>
      by_cases hp : p = δ.root .left <;> simp [heard?, hp, Signal.handedTo?]
  | detached p id n =>
      by_cases hp : p = δ.root .left <;> simp [heard?, hp, Signal.handedTo?]
  | note | message | disposed => rfl

/-- The results of a derived value with one source are the images of what came through. -/
theorem results_image {f : V → V} (hrule : δ.rule = .image f) (vs : List V) :
    δ.results vals (vs.map (Prod.mk .left)) = (vals .left :: vs.map (δ.view .left)).map f := by
  -- from the right, as values come through
  induction vs using List.reverseRecOn generalizing vals with
  | nil =>
      rw [results, hrule]
      rfl
  | append_singleton vs v ih =>
      rw [List.map_append, List.map_singleton, results_concat, ih, List.map_append, hrule]
      simp [hear, Rule.result]

end Recipe

section Running

variable [BEq V] [LawfulBEq V] {δ : Recipe V} {T : Terms V P σ ε} {S : Scope}
  {feeds : Side → Option (Feed V)} {held : Side → Option SubscriptionRef} {vals : Side → V}
  {body : P → Prog V P σ ε} {starts : Prog V P σ ε → Prop} {w w' : World V P σ ε}
  {t : Thread V P σ ε} {es : List (Event V ε)}

/-- In whatever is run without a panic a derived value is followed, and tells the results of what
comes through. -/
theorem Following.run {u : V} (h : Following δ T S feeds held vals w t)
    (hcalm : Calmly body w t) (ht : t.Calm) (hbodies : ∀ c, (body c).Within (δ.terms T) S)
    (hstarts : ∀ c, starts c → c.Within (δ.terms T) S)
    (hrun : Run body starts Thread.Calm w t es w' ⟨.run (.ret u), []⟩) :
    ∃ vals', Following δ T S feeds held vals' w' ⟨.run (.ret u), []⟩ ∧
      δ.Echoed feeds vals es vals' := by
  have hsoon : Soon body (fun es w t => (∃ vals', Following δ T S feeds held vals' w t ∧
      δ.Echoed feeds vals es vals') ∧ Calmly body w t) [] w t := .now ⟨⟨vals, h, .nil⟩, hcalm⟩
  refine ((Soon.clients hsoon ht hrun ?_ ?_).1.ended rfl).1
  · rintro es w t es' w' t' ⟨⟨vals₁, h₁, hechoed⟩, hcalm₁⟩ ht hm ht'
    have hcalm' : Calmly body w' t' := hcalm₁.step hm ht'
    have hreg := fun p q (hq : w.publisher? p = some q) => hcalm₁.regular hq
    have hover : Following δ T S feeds held vals₁ w (t.over []) := t.over_nil.symm ▸ h₁
    obtain ⟨es'', w'', t'', vals', hrun', hafter, hechoes⟩ :=
      hover.move hbodies (t.over_nil.symm ▸ hreg) hm ht'
    rw [Thread.over_nil] at hafter
    have hechoed' := hechoed.append hechoes
    rw [← List.append_assoc] at hechoed'
    exact .of_run hrun' (.now ⟨⟨vals', hafter, hechoed'⟩, hcalm'.run hrun'⟩)
  · rintro es w t o c ⟨⟨vals₁, h₁, hechoed⟩, hcalm₁⟩ ht ho hc -
    obtain ⟨v, rfl⟩ := ht.ret_of_outcome ho
    exact .now ⟨⟨vals₁, h₁.next (hstarts c hc), hechoed⟩, hcalm₁.start ho c⟩

end Running

end ReactiveCells
