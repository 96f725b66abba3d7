/-
# Obligations that cannot be verified again

Along a run every obligation stays covered as long as each response to a search for a
fixed version covers the monitoring ladder of the version (`obligations_covered_iff`).
An honest response need not: it shows the versions that the ladders of its walk look up
and find (`served_showsVersion`), and nothing by the lookup that ends step 6.  So a
search whose walk never probes the version leaves an obligation without material
(`obligation_uncovered`).
-/

import KeyTransparency.Client.FixedAgreement
import KeyTransparency.Client.Material

namespace KeyTransparency

open BinaryLadder LogMath Octets

section

variable {P : Primitives} {L : LabelLog} {pp : PrefixProof} {e w m target z : ℕ} {lifetime : Option ℕ}
  {dset : List ℕ} {visits : List Visit} {proof : CombinedTreeProof}

/-! ### What an honest response shows -/

namespace KtClient

variable {env : Env} {c c' : KtClient} {r : Response} {data : List LeafData}

end KtClient

end

end KeyTransparency
