import FormBody.Content
import FormBody.Proofs.Chunking
import FormBody.Proofs.Cursor.Lines
import FormBody.Proofs.Finality
import FormBody.Proofs.Indifference
import FormBody.Proofs.Message
import FormBody.Proofs.Parameter.Subsequence
import FormBody.Proofs.Part.Lookup
import FormBody.Proofs.Policy
import FormBody.Proofs.Run.Bounds
import FormBody.Proofs.Run.Names
import FormBody.Proofs.Threshold
import FormBody.Proofs.Truncation
import FormBody.Proofs.WriteBack
