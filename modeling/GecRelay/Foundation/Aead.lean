import Mathlib.Data.Set.Basic

/-!
# Authenticated encryption with a nonce

Abstract sealing and opening with a status code (zero is success), and the two
assumptions made of it: opening inverts sealing (`Sound`), and opening accepts
nothing but what was sealed (`Ideal`), where the log says under which nonce
which text was sealed. An ideal opening rejects what was never sealed, so
beside it soundness is asked of the logged texts only (`SoundOn`).
-/

namespace GecRelay.Foundation

structure Aead (κ ν μ τ : Type) where
  enc : κ → ν → μ → Int × μ × τ
  dec : κ → ν → μ → τ → Int × μ

namespace Aead

variable {κ ν μ τ : Type} (A : Aead κ ν μ τ)

/-- Opening what sealing produced gives the text back. -/
def Sound : Prop :=
  ∀ k iv m c t, A.enc k iv m = (0, c, t) → A.dec k iv c t = (0, m)

def Total : Prop :=
  ∀ k iv m, (A.enc k iv m).1 = 0

/-- Under the key `k`, opening accepts exactly the triples that sealing
produced for a logged nonce and text. -/
def Ideal (k : κ) (log : Set (ν × μ)) : Prop :=
  ∀ iv c t, (A.dec k iv c t).1 = 0 ↔ ∃ m, (iv, m) ∈ log ∧ A.enc k iv m = (0, c, t)

/-- Opening what sealing produced for a logged nonce and text gives the text
back. -/
def SoundOn (k : κ) (log : Set (ν × μ)) : Prop :=
  ∀ iv m c t, (iv, m) ∈ log → A.enc k iv m = (0, c, t) → A.dec k iv c t = (0, m)

variable {A}

theorem Ideal.dec_mem {k : κ} {log : Set (ν × μ)} (hI : A.Ideal k log) (hS : A.SoundOn k log)
    {iv : ν} {c : μ} {t : τ} (h : (A.dec k iv c t).1 = 0) :
    (iv, (A.dec k iv c t).2) ∈ log := by
  obtain ⟨m, hlog, henc⟩ := (hI iv c t).mp h
  rw [hS iv m c t hlog henc]
  exact hlog

end Aead

end GecRelay.Foundation
