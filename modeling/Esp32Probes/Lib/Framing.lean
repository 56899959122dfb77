import Mathlib.Data.List.Basic

/-!
# `Lib.Framing` — handlers that take every chunk of a stream for a frame

A stream of frames is delivered in chunks. A handler `h` without a reassembly buffer is applied to each
chunk on its own (`serve`), so what it does depends on where the stream is cut. `GoodCut` describes the cuts
at which this cannot be seen: every frame starts a chunk that holds its relevant bytes and nothing of the
next frame, and the rest of the frame arrives in chunks too short to be taken for anything.

`serve_goodCut` is the rule: on a good cut the chunks are served like the frames themselves.
`GoodCut.transfer` says that being good is a matter of lengths alone.
-/

namespace Framing

variable {σ α β : Type*}

/-- Apply the handler to each chunk in turn, concatenating the outputs. -/
def serve (h : σ → List α → σ × List β) : σ → List (List α) → σ × List β
  | s, [] => (s, [])
  | s, c :: cs => ((serve h (h s c).1 cs).1, (h s c).2 ++ (serve h (h s c).1 cs).2)

/-- The chunks `cs` cut the frames `fs` harmlessly: the chunk that starts frame `f` holds at least
    `need f` of its elements and no element of the next frame, and the chunks with the rest of `f` are
    shorter than `quiet`. -/
inductive GoodCut (need : List α → Nat) (quiet : Nat) : List (List α) → List (List α) → Prop
  | nil : GoodCut need quiet [] []
  | cons {f c : List α} (qs : List (List α)) {fs cs : List (List α)} (hcat : c ++ qs.flatten = f)
      (hneed : need f ≤ c.length) (hquiet : ∀ q ∈ qs, q.length < quiet)
      (rest : GoodCut need quiet fs cs) : GoodCut need quiet (f :: fs) (c :: (qs ++ cs))

variable {h : σ → List α → σ × List β} {need : List α → Nat} {quiet : Nat}

/-- Chunks that the handler ignores can be dropped. -/
theorem serve_quiet (hq : ∀ s c, c.length < quiet → h s c = (s, [])) {qs : List (List α)}
    (hqs : ∀ q ∈ qs, q.length < quiet) (s : σ) (cs : List (List α)) :
    serve h s (qs ++ cs) = serve h s cs := by
  induction qs with
  | nil => rfl
  | cons q qs ih =>
      have hhead : h s q = (s, []) := hq s q (hqs q List.mem_cons_self)
      rw [List.cons_append, serve, hhead]
      apply ih
      intro q' hq'
      exact hqs q' (List.mem_cons_of_mem q hq')

/-- **A good cut is invisible.** If chunks shorter than `quiet` are ignored, and a prefix of a frame that
    holds what the frame needs is handled like the frame, then serving the chunks of a good cut is serving
    the frames. -/
theorem serve_goodCut (hq : ∀ s c, c.length < quiet → h s c = (s, [])) {fs cs : List (List α)}
    (hp : ∀ f ∈ fs, ∀ s c, c <+: f → need f ≤ c.length → h s c = h s f)
    (hcut : GoodCut need quiet fs cs) (s : σ) : serve h s cs = serve h s fs := by
  induction hcut generalizing s with
  | nil => rfl
  | @cons f c qs fs cs hcat hneed hquiet _ ih =>
      -- the first chunk is handled like the frame it starts, the others of the frame are ignored
      have hhead : h s c = h s f := hp f List.mem_cons_self s c ⟨qs.flatten, hcat⟩ hneed
      have htail : serve h (h s f).1 cs = serve h (h s f).1 fs := by
        apply ih
        intro f' hf'
        exact hp f' (List.mem_cons_of_mem f hf')
      rw [serve, serve, hhead, serve_quiet hq hquiet, htail]

/-- The chunks of a good cut are the stream of the frames. -/
theorem GoodCut.flatten {fs cs : List (List α)} (hcut : GoodCut need quiet fs cs) :
    cs.flatten = fs.flatten := by
  induction hcut with
  | nil => rfl
  | cons qs hcat _ _ _ ih =>
      rw [List.flatten_cons, List.flatten_cons, List.flatten_append, ih, ← hcat, List.append_assoc]

/-- **Whether a cut is good depends on lengths alone.** Frames with the same needs and lengths, cut at the
    same places, are cut as well. -/
theorem GoodCut.transfer {fs cs : List (List α)} (hcut : GoodCut need quiet fs cs) :
    ∀ {fs' cs' : List (List α)},
      fs'.map (fun f => (need f, f.length)) = fs.map (fun f => (need f, f.length)) →
      cs'.map List.length = cs.map List.length → cs'.flatten = fs'.flatten →
      GoodCut need quiet fs' cs' := by
  induction hcut with
  | nil =>
      intro fs' cs' hf hc _
      rw [List.map_eq_nil_iff.mp hf, List.map_eq_nil_iff.mp hc]
      exact .nil
  | @cons f c qs fs cs hcat hneed hquiet _ ih =>
      intro fs' cs' hf hc hflat
      obtain ⟨f', fs', rfl, hf', hfs⟩ := List.map_eq_cons_iff.mp hf
      obtain ⟨c', rest, rfl, hc', hrest⟩ := List.map_eq_cons_iff.mp hc
      rw [List.map_append] at hrest
      obtain ⟨qs', cs', rfl, hqs', hcs'⟩ := List.map_eq_append_iff.mp hrest
      obtain ⟨hn, hl⟩ := Prod.mk.inj hf'
      -- the chunks of the first frame have its length together, so the streams split there
      have hqlen : qs'.flatten.length = qs.flatten.length := by
        rw [List.length_flatten, List.length_flatten, hqs']
      have hlen : (c' ++ qs'.flatten).length = f'.length := by
        rw [hl, ← hcat, List.length_append, List.length_append, hc', hqlen]
      rw [List.flatten_cons, List.flatten_append, List.flatten_cons, ← List.append_assoc] at hflat
      obtain ⟨hcat', hflat'⟩ := List.append_inj hflat hlen
      refine .cons qs' hcat' (by rw [hn, hc']; exact hneed) ?_ (ih hfs hcs' hflat')
      intro q' hq'
      have hmem : q'.length ∈ qs.map List.length := by rw [← hqs']; exact List.mem_map_of_mem hq'
      obtain ⟨q, hq, heq⟩ := List.mem_map.mp hmem
      rw [← heq]; exact hquiet q hq

end Framing
