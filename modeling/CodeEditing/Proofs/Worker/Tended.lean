import CodeEditing.Proofs.Document.Replay
import CodeEditing.Proofs.Worker.Live
import CodeEditing.Proofs.Worker.Numbers

/-! Hosts that tend their documents.

While its client is live, the document attached knows the client's listener, under a number that no
other listener has (`Host.Tended`). Every step of a host keeps this, and each has one lemma that says
which messages it sends and which lines the document attached has behind it. -/
namespace CodeEditing.Worker

open Document (Clean Delta Edit Line Revision TextDocument)
open Json (Value)

/-! ### Documents -/

/-- Lines without line ends, and listeners whose numbers are different and used up. -/
structure Kept (d : TextDocument) : Prop where
  clean : Clean d.lines
  nodup : d.listeners.Nodup
  below : ∀ l ∈ d.listeners, l < d.nextListener

/-- Listeners whose numbers are different and used up. -/
structure Counted (d : TextDocument) : Prop where
  nodup : d.listeners.Nodup
  below : ∀ l ∈ d.listeners, l < d.nextListener

/-- The same document with fewer listeners. -/
structure Thinned (d e : TextDocument) : Prop where
  lines : e.lines = d.lines
  next : e.nextListener = d.nextListener
  listeners : e.listeners.Sublist d.listeners

namespace Thinned

theorem rfl (d : TextDocument) : Thinned d d := ⟨.refl _, .refl _, .refl _⟩

theorem trans {d e f : TextDocument} (hde : Thinned d e) (hef : Thinned e f) : Thinned d f :=
  ⟨hef.lines.trans hde.lines, hef.next.trans hde.next, hef.listeners.trans hde.listeners⟩

theorem unlisten (d : TextDocument) (l : Nat) : Thinned d (d.unlisten l).1 :=
  ⟨.refl _, .refl _, List.filter_sublist⟩

end Thinned

namespace Counted
variable {d e : TextDocument}

theorem ofText (text : List Char) : Counted (.ofText text) :=
  ⟨.nil, fun _ hl => absurd hl List.not_mem_nil⟩

theorem thin (h : Counted d) (ht : Thinned d e) : Counted e where
  nodup := h.nodup.sublist ht.listeners
  below l hl := ht.next ▸ h.below l (ht.listeners.subset hl)

theorem listen (h : Counted d) : Counted d.listen.1 where
  nodup := by
    have hn : (d.listeners.map id).Nodup := by
      rw [List.map_id]
      exact h.nodup
    have hnodup := nodup_map_concat (a := d.nextListener) id hn h.below
    rwa [List.map_id] at hnodup
  below := below_concat id h.below

theorem make (h : Counted d) (r : Revision) : Counted (r.make d).doc := by
  obtain ⟨hl, hn⟩ := r.make_listeners d
  refine ⟨hl ▸ h.nodup, ?_⟩
  rw [hl, hn]
  exact h.below

end Counted

namespace Kept
variable {d e : TextDocument}

theorem counted (h : Kept d) : Counted d := ⟨h.nodup, h.below⟩

theorem of_counted (hc : Clean d.lines) (h : Counted d) : Kept d := ⟨hc, h.nodup, h.below⟩

theorem ofText {text : List Char} (h : '\r' ∉ text) : Kept (.ofText text) :=
  .of_counted (.splitLines h) (.ofText text)

theorem thin (h : Kept d) (ht : Thinned d e) : Kept e :=
  .of_counted (ht.lines ▸ h.clean) (h.counted.thin ht)

theorem listen (h : Kept d) : Kept d.listen.1 := .of_counted h.clean h.counted.listen

theorem make (h : Kept d) {r : Revision} (hr : r.Plain) : Kept (r.make d).doc :=
  .of_counted (Revision.make_clean h.clean hr) (h.counted.make r)

end Kept

theorem mem_of_lookup_ofText {docs : List (String × List Char)} {name : String} {d : TextDocument}
    (h : (docs.map fun p => (p.1, TextDocument.ofText p.2)).lookup name = some d) :
    ∃ p ∈ docs, d = .ofText p.2 := by
  obtain ⟨before, after, hsplit, -⟩ := List.lookup_eq_some_iff.1 h
  have hmem : (name, d) ∈ docs.map fun p => (p.1, TextDocument.ofText p.2) := by
    rw [hsplit]
    exact List.mem_append_right _ List.mem_cons_self
  obtain ⟨p, hp, hpd⟩ := List.mem_map.1 hmem
  exact ⟨p, hp, (Prod.mk.inj hpd).2.symm⟩

namespace Host
variable {x : Host} {name : String} {d : TextDocument}

theorem doc?_setDoc (x : Host) (name n : String) (doc : TextDocument) :
    (x.setDoc name doc).doc? n = if n = name then (x.doc? n).map fun _ => doc else x.doc? n := by
  obtain ⟨client, docs⟩ := x
  unfold setDoc doc?
  dsimp only
  induction docs with
  | nil => simp
  | cons p docs ih =>
    obtain ⟨k, e⟩ := p
    by_cases hk : k = name
    · by_cases hn : n = k
      · simp [hk, hn]
      · have hnk : (n == k) = false := beq_eq_false_iff_ne.2 hn
        simp only [List.map_cons, if_pos hk, List.lookup_cons, hnk, ih]
    · by_cases hn : n = k
      · simp [hk, hn]
      · have hnk : (n == k) = false := beq_eq_false_iff_ne.2 hn
        simp only [List.map_cons, if_neg hk, List.lookup_cons, hnk, ih]

/-- A document that there is gives way to another. -/
theorem doc?_setDoc_of_some (hd : x.doc? name = some d) (e : TextDocument) (n : String) :
    (x.setDoc name e).doc? n = if n = name then some e else x.doc? n := by
  rw [doc?_setDoc]
  by_cases hn : n = name
  · rw [if_pos hn, if_pos hn, hn, hd]
    rfl
  · rw [if_neg hn, if_neg hn]

/-- The document attached. -/
def attached? (x : Host) : Option TextDocument :=
  x.client.attachment.bind fun a => x.doc? a.doc

/-- The client is live, and the document attached has it among its listeners. -/
structure Tended (x : Host) : Prop where
  live : x.client.Live
  docs : ∀ name d, x.doc? name = some d → Kept d
  listens : ∀ a, x.client.attachment = some a →
    ∃ d, x.doc? a.doc = some d ∧ a.listener ∈ d.listeners

/-! ### What effects mean for the documents -/

theorem settle_client (busy : Option String) (x : Host) (e : Effect) :
    (settle busy x e).client = x.client := by
  unfold settle
  split
  · split <;> rfl
  · split
    · split <;> rfl
    · rfl
  · rfl

theorem foldl_settle_client (busy : Option String) (x : Host) (effects : List Effect) :
    (effects.foldl (settle busy) x).client = x.client := by
  induction effects generalizing x with
  | nil => rfl
  | cons e effects ih => exact (ih _).trans (settle_client busy x e)

theorem foldl_settle_apart (busy : Option String) (x : Host) {effects : List Effect}
    (h : ∀ e ∈ effects, e.Apart) : effects.foldl (settle busy) x = x := by
  induction effects with
  | nil => rfl
  | cons e effects ih =>
    have he : settle busy x e = x := by
      have := h e List.mem_cons_self
      cases e <;> first | rfl | exact this.elim
    rw [List.foldl_cons, he]
    exact ih fun e he => h e (List.mem_cons_of_mem _ he)

/-- As long as no listener comes, documents thin out at most. -/
theorem foldl_settle_thin (busy : Option String) (x : Host) {effects : List Effect}
    (h : ∀ e ∈ effects, e.Unlistening) (n : String) :
    ∃ f : TextDocument → TextDocument, (∀ d, Thinned d (f d)) ∧
      (effects.foldl (settle busy) x).doc? n = (x.doc? n).map f := by
  induction effects generalizing x with
  | nil => exact ⟨id, Thinned.rfl, by simp⟩
  | cons e effects ih =>
    have hfirst : ∃ f : TextDocument → TextDocument, (∀ d, Thinned d (f d)) ∧
        (settle busy x e).doc? n = (x.doc? n).map f := by
      have hid : ∃ f : TextDocument → TextDocument, (∀ d, Thinned d (f d)) ∧
          x.doc? n = (x.doc? n).map f := ⟨id, Thinned.rfl, by simp⟩
      cases e with
      | listen name => exact (h _ List.mem_cons_self).elim
      | release a =>
        unfold settle
        dsimp only
        split
        · next d hd =>
          split
          · exact hid
          · by_cases hn : n = a.doc
            · refine ⟨fun e => (e.unlisten a.listener).1, fun e => .unlisten e _, ?_⟩
              rw [doc?_setDoc, if_pos hn, hn, hd]
              rfl
            · exact ⟨id, Thinned.rfl, by rw [doc?_setDoc, if_neg hn]; simp⟩
        · exact hid
      | _ => exact hid
    obtain ⟨f, hf, hfdoc⟩ := hfirst
    obtain ⟨g, hg, hgdoc⟩ := ih (settle busy x e) fun e he => h e (List.mem_cons_of_mem _ he)
    refine ⟨g ∘ f, fun d => (hf d).trans (hg (f d)), ?_⟩
    rw [List.foldl_cons, hgdoc, hfdoc, Option.map_map]

/-- A listener of a document comes after others have gone. -/
theorem foldl_settle_listen (busy : Option String) (x : Host) {effects : List Effect}
    (h : ∀ e ∈ effects, e.Unlistening) (name n : String) :
    ∃ f : TextDocument → TextDocument, (∀ d, Thinned d (f d)) ∧
      ((effects ++ [Effect.listen name]).foldl (settle busy) x).doc? n =
        (x.doc? n).map fun d => if n = name then (f d).listen.1 else f d := by
  obtain ⟨f, hf, hdoc⟩ := foldl_settle_thin busy x h n
  refine ⟨f, hf, ?_⟩
  rw [List.foldl_append]
  show (settle busy _ (.listen name)).doc? n = _
  by_cases hn : n = name
  · subst hn
    rw [settle, hdoc]
    cases hx : x.doc? n with
    | none => exact hdoc.trans (by rw [hx]; rfl)
    | some d =>
      rw [hx] at hdoc
      dsimp only [Option.map_some]
      rw [doc?_setDoc_of_some hdoc, if_pos rfl, if_pos rfl]
  · simp only [if_neg hn]
    rw [← hdoc, settle]
    split
    · next d hd => rw [doc?_setDoc_of_some hd, if_neg hn]
    · rfl

/-- Attaching a document lets listeners go, and the document gets one. -/
theorem attach_docs (hd : x.doc? name = some d) (busy : Option String) {c : Client}
    {m : HostMessage} (hact : x.client.attach name d.value d.nextListener =
      ⟨c, .ok (), x.client.releases ++ [.post m, .listen name]⟩) (n : String) :
    ∃ f : TextDocument → TextDocument, (∀ d, Thinned d (f d)) ∧
      (x.attach name busy).1.doc? n =
        (x.doc? n).map fun d => if n = name then (f d).listen.1 else f d := by
  rw [Host.attach, hd]
  dsimp only
  rw [Host.act, hact, List.append_cons]
  refine foldl_settle_listen busy {x with client := c} (fun e he => ?_) name n
  rcases List.mem_append.1 he with he | he
  · exact x.client.unlistening_releases e he
  · exact List.mem_singleton.1 he ▸ trivial

/-- What all documents keep when listeners come and go, they keep when one is attached. -/
theorem attach_all {P : TextDocument → Prop} (hthin : ∀ d e, P d → Thinned d e → P e)
    (hlisten : ∀ d, P d → P d.listen.1) (hdocs : ∀ n d, x.doc? n = some d → P d)
    (hd : x.doc? name = some d) (busy : Option String) {c : Client} {m : HostMessage}
    (hact : x.client.attach name d.value d.nextListener =
      ⟨c, .ok (), x.client.releases ++ [.post m, .listen name]⟩) (n : String) (e : TextDocument)
    (hn : (x.attach name busy).1.doc? n = some e) : P e := by
  obtain ⟨f, hf, hdoc⟩ := attach_docs hd busy hact n
  obtain ⟨k, hk, hke⟩ := Option.map_eq_some_iff.1 (hdoc.symm.trans hn)
  have hkept := hthin k (f k) (hdocs n k hk) (hf k)
  split at hke
  · exact hke ▸ hlisten _ hkept
  · exact hke ▸ hkept

/-- The document attached has its lines still, and the listener it was asked for. -/
theorem attach_own (hd : x.doc? name = some d) (busy : Option String) {c : Client}
    {m : HostMessage} (hact : x.client.attach name d.value d.nextListener =
      ⟨c, .ok (), x.client.releases ++ [.post m, .listen name]⟩) :
    ∃ e, (x.attach name busy).1.doc? name = some e ∧ e.lines = d.lines ∧
      d.nextListener ∈ e.listeners := by
  obtain ⟨f, hf, hname⟩ := attach_docs hd busy hact name
  rw [hd, Option.map_some, if_pos rfl] at hname
  refine ⟨_, hname, (hf d).lines, ?_⟩
  show d.nextListener ∈ (f d).listeners ++ [(f d).nextListener]
  rw [(hf d).next]
  exact List.mem_append_right _ (List.mem_singleton.2 rfl)

theorem act_client (x : Host) (f : Client → Reaction α) (busy : Option String) :
    (x.act f busy).1.client = (f x.client).client :=
  foldl_settle_client busy {x with client := (f x.client).client} _

/-! ### Edits -/

/-- The changes of an edit go to the worker if the client is among those who listen. -/
theorem edit_effects (hd : x.doc? name = some d) (hn : d.listeners.Nodup) (r : Revision) :
    (x.edit name (r.make ·)).2.2 =
      if x.client.hasWorker = true ∧ ∃ l ∈ d.listeners, x.client.attachment = some ⟨name, l⟩ then
        (r.make d).deltas.map fun delta => .post (.change delta)
      else [] := by
  unfold Host.edit
  rw [hd]
  dsimp only
  rw [Edit.told, List.flatMap_assoc]
  simp only [List.flatMap_map, (r.make_listeners d).1, x.client.flatMap_forward name hn]
  split
  · exact List.map_eq_flatMap.symm
  · exact List.flatMap_eq_nil_iff.2 fun _ _ => rfl

theorem edit_client (hd : x.doc? name = some d) (r : Revision) :
    (x.edit name (r.make ·)).1.client = x.client := by
  unfold Host.edit
  rw [hd]
  rfl

theorem edit_doc? (hd : x.doc? name = some d) (r : Revision) (n : String) :
    (x.edit name (r.make ·)).1.doc? n = if n = name then some (r.make d).doc else x.doc? n := by
  have hy : (x.edit name (r.make ·)).1 = x.setDoc name (r.make d).doc := by rw [Host.edit, hd]
  rw [hy]
  exact doc?_setDoc_of_some hd _ n

namespace Tended

/-- Doing something that leaves the documents and what is attached alone. -/
theorem act (h : x.Tended) {f : Client → Reaction α} (hc : (f x.client).client.Live)
    (ha : (f x.client).client.attachment = x.client.attachment)
    (he : ∀ e ∈ (f x.client).effects, e.Apart) :
    (x.act f).1.Tended ∧ (x.act f).1.attached? = x.attached? := by
  have hx : (x.act f).1 = {x with client := (f x.client).client} := foldl_settle_apart none _ he
  rw [hx]
  refine ⟨⟨hc, h.docs, fun a hca => h.listens a (ha ▸ hca)⟩, ?_⟩
  unfold attached?
  rw [ha]
  rfl

theorem receive (h : x.Tended) (o : Output) :
    Tended {x with client := x.client.receive o} ∧
      attached? {x with client := x.client.receive o} = x.attached? :=
  ⟨⟨h.live.receive o, h.docs, h.listens⟩, rfl⟩

theorem detach (h : x.Tended) (busy : Option String) :
    (x.act Client.detach busy).1.Tended ∧ (x.act Client.detach busy).1.attached? = none := by
  have hc : (x.act Client.detach busy).1.client =
      {x.client with attachment := none, phase := .initializing} := by
    rw [act_client, h.live.detach]
  refine ⟨⟨?_, ?_, ?_⟩, ?_⟩
  · rw [hc]
    exact h.live.detached
  · intro n e hn
    rw [Host.act, h.live.detach] at hn
    obtain ⟨f, hf, hdoc⟩ := foldl_settle_thin busy
      {x with client := {x.client with attachment := none, phase := .initializing}}
      x.client.unlistening_releases n
    rw [hdoc] at hn
    obtain ⟨d, hd, rfl⟩ := Option.map_eq_some_iff.1 hn
    exact (h.docs n d hd).thin (hf d)
  · intro a ha
    rw [hc] at ha
    exact absurd ha (by simp)
  · rw [attached?, hc]
    rfl

/-- Attaching a document tells its lines. -/
theorem attach (h : x.Tended) (hd : x.doc? name = some d) :
    (x.attach name).1.Tended ∧
      (∃ e, (x.attach name).1.attached? = some e ∧ e.lines = d.lines) ∧
      posts (x.attach name).2.2 = [.command "setValue" [.string (String.ofList d.value)]] := by
  have hx : x.attach name = x.act (·.attach name d.value d.nextListener) := by
    rw [Host.attach, hd]
  have hact := h.live.attach name d.value d.nextListener
  have hc : (x.attach name).1.client =
      {x.client with attachment := some ⟨name, d.nextListener⟩, phase := .attached} := by
    rw [hx, act_client, hact]
  obtain ⟨own, hown, hlines, hlistens⟩ := attach_own hd none hact
  have hdocs := attach_all (fun _ _ => Kept.thin) (fun _ => Kept.listen) h.docs hd none hact
  refine ⟨⟨?_, hdocs, ?_⟩, ⟨own, ?_, hlines⟩, ?_⟩
  · rw [hc]
    exact h.live.attached _
  · intro a ha
    rw [hc] at ha
    cases ha
    exact ⟨own, hown, hlistens⟩
  · rw [attached?, hc]
    exact hown
  · rw [hx, Host.act, hact]
    show posts (_ ++ _) = _
    rw [posts_append]
    exact congrArg (· ++ _) x.client.posts_releases

theorem edit_tended (h : x.Tended) (hd : x.doc? name = some d) {r : Revision} (hr : r.Plain) :
    (x.edit name (r.make ·)).1.Tended := by
  refine ⟨edit_client hd r ▸ h.live, fun n e hn => ?_, fun a ha => ?_⟩
  · rw [edit_doc? hd] at hn
    by_cases hne : n = name
    · rw [if_pos hne] at hn
      exact Option.some.inj hn ▸ (h.docs name d hd).make hr
    · rw [if_neg hne] at hn
      exact h.docs n e hn
  · rw [edit_client hd] at ha
    obtain ⟨e, he, hl⟩ := h.listens a ha
    by_cases hne : a.doc = name
    · refine ⟨(r.make d).doc, by rw [edit_doc? hd, if_pos hne], ?_⟩
      rw [hne, hd] at he
      rw [(r.make_listeners d).1, Option.some.inj he]
      exact hl
    · exact ⟨e, by rw [edit_doc? hd, if_neg hne, he], hl⟩

/-- Editing the document attached tells of the changes, one after the other; editing another one
tells nothing. -/
theorem edit (h : x.Tended) (hd : x.doc? name = some d) {r : Revision} (hr : r.Plain) :
    (x.edit name (r.make ·)).1.Tended ∧
      ((x.attached? = some d ∧ (x.edit name (r.make ·)).1.attached? = some (r.make d).doc ∧
          posts (x.edit name (r.make ·)).2.2 = (r.make d).deltas.map .change) ∨
        ((x.edit name (r.make ·)).1.attached? = x.attached? ∧
          posts (x.edit name (r.make ·)).2.2 = [])) := by
  refine ⟨h.edit_tended hd hr, ?_⟩
  unfold attached?
  rw [edit_client hd, edit_effects hd (h.docs name d hd).nodup]
  cases ha : x.client.attachment with
  | none =>
    refine .inr ⟨rfl, ?_⟩
    simp [posts]
  | some a =>
    obtain ⟨e, he, hl⟩ := h.listens a ha
    by_cases hne : a.doc = name
    · subst hne
      cases hd.symm.trans he
      refine .inl ⟨hd, by simp [edit_doc? hd], ?_⟩
      rw [if_pos ⟨h.live.hasWorker, _, hl, rfl⟩]
      exact posts_map_post HostMessage.change _
    · have hno : ¬ ∃ l ∈ d.listeners, some a = some ⟨name, l⟩ := by
        rintro ⟨l, -, hal⟩
        exact hne (by rw [Option.some.inj hal])
      refine .inr ⟨by simp [edit_doc? hd, hne], ?_⟩
      rw [if_neg fun h => hno h.2]
      rfl

end Tended

end Host

end CodeEditing.Worker
