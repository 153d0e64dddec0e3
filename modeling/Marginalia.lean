import Marginalia.Main
import Marginalia.Path.Order
import Marginalia.Document.Indexed
import Marginalia.Proofs.Ancestry
import Marginalia.Proofs.RoundTrip
import Marginalia.Proofs.DataKept
import Marginalia.Proofs.Resting
import Marginalia.Proofs.Regeneration
import Marginalia.Proofs.ReadBack
import Marginalia.Proofs.TextForm
import Marginalia.Proofs.Transparency
import Marginalia.Proofs.Addressing
import Marginalia.Proofs.Endings
import Marginalia.Proofs.Siblings
import Marginalia.Proofs.Dataless
import Marginalia.Proofs.Locality
import Marginalia.Proofs.Margins
import Marginalia.Proofs.StoredFiles
import Marginalia.Proofs.JsonListings
import Marginalia.Proofs.Listed
import Marginalia.Proofs.DepthOrder
import Marginalia.Proofs.Hanging
import Marginalia.Proofs.Masking
import Marginalia.Proofs.WrittenPaths
import Marginalia.Proofs.Classification
import Marginalia.Proofs.StrayReturns
import Marginalia.Proofs.Trails
import Marginalia.Proofs.Restoring
